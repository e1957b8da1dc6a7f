import Outdent.PositionMap
import Outdent.Proofs.Marker.Rendering
import Outdent.Proofs.Marker.Usages
/-! # Edits agree with the reference

By induction over the tree every node renders, on its own and within a wrapper. So the text that
edits make of a document is the text that the rewritten tree stands for. -/
namespace Outdent.Marker.Reference

open Outdent.Syntax Outdent.Edit

variable {text : List Char} {names : List String}

theorem isEmptyDelimiter_holes {body : Template Node} (h : Usage.isEmptyDelimiter body = true) :
    body.holes = [] := by
  unfold Usage.isEmptyDelimiter at h
  split at h
  · rfl
  · contradiction

theorem of?_of_isComposed (names : List String) {tag : Node} (typeArguments : Option Node)
    {body : Template Node} (h : isComposed tag body = true) : ∃ r opening types inner,
      tag = .tagged r (.template opening) types inner ∧ opening.holes = [] ∧ body.holes = [] ∧
      Usage.of? names tag typeArguments body = some (.composed opening.range body.range inner) := by
  unfold isComposed at h
  split at h
  · next r opening types inner =>
    obtain ⟨ho, hb⟩ := Bool.and_eq_true_iff.mp h
    refine ⟨r, opening, types, inner, rfl, isEmptyDelimiter_holes ho, isEmptyDelimiter_holes hb, ?_⟩
    simp [Usage.of?, ho, hb]
  · contradiction

theorem of?_of_isMarked {tag : Node} (typeArguments : Option Node) (body : Template Node)
    (h : isMarked names tag = true) : (∃ r name, tag = .identifier r name) ∧
      Usage.of? names tag typeArguments body = some (.direct (tagSpan tag typeArguments) body) := by
  cases tag with
  | identifier r name =>
    have hn : names.contains name = true := by simpa [isMarked, Node.name?] using h
    exact ⟨⟨r, name, rfl⟩, by simp only [Usage.of?, hn]; rfl⟩
  | _ => simp [isMarked, Node.name?] at h

theorem of?_eq_none {tag : Node} (typeArguments : Option Node) {body : Template Node}
    (hc : isComposed tag body = false) (hm : isMarked names tag = false) :
    Usage.of? names tag typeArguments body = none := by
  unfold Usage.of?
  split
  · next opening _ _ =>
    have hd : (Usage.isEmptyDelimiter opening && Usage.isEmptyDelimiter body) = false := hc
    simp [hd]
  · next r name =>
    have hn : names.contains name = false := by simpa [isMarked, Node.name?] using hm
    rw [hn]
    rfl
  · rfl

def nodePart (text : List Char) (names : List String) (n : Node) : Part :=
  ⟨n.range, textOf text names false n, editsIn names n⟩

theorem partsOf_eq (ns : List Node) :
    partsOf text names ns = (ns.map (nodePart text names)).map Part.placed := by
  induction ns with
  | nil => rfl
  | cons n ns ih =>
    rw [partsOf, ih]
    rfl

theorem partsOfOption_eq (n : Option Node) :
    partsOfOption text names n = (n.toList.map (nodePart text names)).map Part.placed := by
  cases n <;> rfl

/-- A segment as a part of its template, with the one edit that normalises it or none. -/
def segmentPart (s : Segment) : Part :=
  ⟨s.range, Segment.normalize s.raw, Usage.replacements ⟨s.range, [s], []⟩⟩

theorem mem_replacements {body : Template Node} {e : Edit} :
    e ∈ Usage.replacements body ↔ ∃ s ∈ body.segments, e ∈ (segmentPart s).own := by
  simp only [segmentPart, Usage.replacements, List.mem_filterMap, List.mem_singleton,
    exists_eq_left]

theorem renders_segment {s : Segment} (hv : s.range.isValidIn text = true)
    (hraw : s.raw = Text.slice s.range.start s.range.stop text) :
    Renders text (segmentPart s).span (segmentPart s).text (segmentPart s).own := by
  have hle := (Span.isValidIn_iff.mp hv).1
  by_cases hskip : s.range.stop ≤ s.range.start ∧ Segment.normalize s.raw = []
  · have hown : (segmentPart s).own = [] := by simp [segmentPart, Usage.replacements, hskip]
    rw [hown]
    refine ⟨hv, by simp, fun e he => absurd he List.not_mem_nil, fun es _ _ _ => ?_⟩
    have heq : s.range.stop = s.range.start := by omega
    simp only [segmentPart]
    rw [heq, emittedBetween_self, hskip.2]
  · have hown : (segmentPart s).own = [.replace s.range (Segment.normalize s.raw)] := by
      simp only [segmentPart, Usage.replacements, List.filterMap_cons, List.filterMap_nil]
      rw [if_neg (by simpa using hskip)]
    rw [hown]
    constructor
    · exact hv
    · intro e he
      rw [List.mem_singleton.mp he]
      exact Span.Within.refl _
    · intro e he hempty
      rw [List.mem_singleton.mp he] at hempty ⊢
      have heq : s.range.stop = s.range.start := by simp only [range] at hempty; omega
      rw [heq, Text.slice_self] at hraw
      simp only [replacement, hraw]
      rfl
    · intro es ha hn ho
      exact (emittedBetween_range ha hn (ho.mem _ List.mem_cons_self)).symm

def plainText (text : List Char) (names : List String) (body : Template Node) : List Char :=
  restate text body.range (partsOf text names body.holes)

def normalisedText (text : List Char) (names : List String) (body : Template Node) : List Char :=
  restate text body.range
    (body.segments.map (fun s => (s.range, Segment.normalize s.raw)) ++
      partsOf text names body.holes)

theorem textOf_tagged (wrapped : Bool) (r : Span) (tag : Node) (typeArguments : Option Node)
    (body : Template Node) : textOf text names wrapped (.tagged r tag typeArguments body) =
      if wrapped then
        restate text r ((tag.range, []) :: partsOfOption text names typeArguments ++
          [(body.range, normalisedText text names body)])
      else if isComposed tag body then
        restate text r ((tag.range, textOf text names true tag) ::
          partsOfOption text names typeArguments ++ [(body.range, [])])
      else if isMarked names tag then
        restate text r [(tagSpan tag typeArguments, []),
          (body.range, normalisedText text names body)]
      else
        restate text r ((tag.range, textOf text names false tag) ::
          partsOfOption text names typeArguments ++
          [(body.range, plainText text names body)]) := by
  cases body
  rw [textOf]
  rfl

/-- The edits in a node within a wrapper: its tag goes and its template is normalised. -/
def wrappedEdits (names : List String) : Node → List Edit
  | .tagged _ tag typeArguments body =>
    .delete tag.range :: (Usage.replacements body ++
      typeArguments.toList.flatMap (editsIn names) ++ body.holes.flatMap (editsIn names))
  | n => editsIn names n

theorem mem_wrappedEdits {r : Span} {tag : Node} {typeArguments : Option Node}
    {body : Template Node} {e : Edit} : e ∈ wrappedEdits names (.tagged r tag typeArguments body) ↔
      e ∈ [.delete tag.range] ++ typeArguments.toList.flatMap (editsIn names) ++
        (Usage.replacements body ++ body.holes.flatMap (editsIn names)) := by
  simp only [wrappedEdits, List.mem_cons, List.mem_append, List.not_mem_nil, or_false]
  tauto

theorem mem_editsIn_of_isComposed {r : Span} {tag : Node} {typeArguments : Option Node}
    {body : Template Node} {e : Edit} (h : isComposed tag body = true) :
    e ∈ editsIn names (.tagged r tag typeArguments body) ↔
      e ∈ wrappedEdits names tag ++ typeArguments.toList.flatMap (editsIn names) ++
        [.delete body.range] := by
  obtain ⟨r', opening, types, inner, rfl, ho, hbody, hof⟩ :=
    of?_of_isComposed names typeArguments h
  have hinner : Usage.of? names (.template opening) types inner = none := rfl
  simp only [mem_editsIn_tagged, hof, Option.mem_def, Option.some.injEq, exists_eq_left',
    Usage.mem_edits_composed, hinner, reduceCtorEq, false_and, exists_false, mem_editsIn_template,
    ho, List.not_mem_nil, false_or, hbody, or_false, wrappedEdits, Node.range, List.append_assoc,
    List.cons_append, List.mem_cons, List.mem_append, List.mem_flatMap, Option.mem_toList]
  -- The removal of the closing template stands last on one side and second on the other.
  simp only [or_comm, or_left_comm, or_assoc]

theorem mem_editsIn_of_isMarked {r : Span} {tag : Node} {typeArguments : Option Node}
    {body : Template Node} {e : Edit} (h : isMarked names tag = true) :
    e ∈ editsIn names (.tagged r tag typeArguments body) ↔
      e ∈ .delete (tagSpan tag typeArguments) :: (typeArguments.toList.flatMap (editsIn names) ++
        (Usage.replacements body ++ body.holes.flatMap (editsIn names))) := by
  obtain ⟨⟨r', name, rfl⟩, hof⟩ := of?_of_isMarked typeArguments body h
  simp only [mem_editsIn_tagged, hof, Option.mem_def, Option.some.injEq, exists_eq_left',
    Usage.mem_edits_direct, editsIn_identifier, List.not_mem_nil, false_or, List.mem_cons,
    List.mem_append, List.mem_flatMap, Option.mem_toList]
  rw [or_assoc, or_left_comm (a := e ∈ Usage.replacements body)]

theorem mem_editsIn_of_unmarked {r : Span} {tag : Node} {typeArguments : Option Node}
    {body : Template Node} {e : Edit} (hc : isComposed tag body = false)
    (hm : isMarked names tag = false) : e ∈ editsIn names (.tagged r tag typeArguments body) ↔
      e ∈ editsIn names tag ++ typeArguments.toList.flatMap (editsIn names) ++
        body.holes.flatMap (editsIn names) := by
  simp [mem_editsIn_tagged, of?_eq_none typeArguments hc hm]

structure NodeRenders (text : List Char) (names : List String) (n : Node) : Prop where
  alone : Renders text n.range (textOf text names false n) (editsIn names n)
  wrapped : Renders text n.range (textOf text names true n) (wrappedEdits names n)

theorem renders_nodes (names : List String) {r : Span} (ns : List Node)
    (hr : r.isValidIn text = true) (hs : Siblings r (ns.map (·.range)))
    (h : ∀ n ∈ ns, NodeRenders text names n) :
    Renders text r (restate text r (partsOf text names ns)) (ns.flatMap (editsIn names)) := by
  rw [partsOf_eq]
  refine (renders_restate (ns.map (nodePart text names)) hr ?_ ?_).congr ?_
  · simpa [nodePart, Function.comp_def] using hs
  · intro p hp
    obtain ⟨n, hn, rfl⟩ := List.mem_map.mp hp
    exact (h n hn).alone
  · simp [nodePart]

theorem renders_plain {body : Template Node} (hb : body.Fits text)
    (hfit : ∀ h ∈ body.holes, h.Fits text) (h : ∀ n ∈ body.holes, NodeRenders text names n) :
    Renders text body.range (plainText text names body) (body.holes.flatMap (editsIn names)) := by
  have hs := hb.siblings hfit
  refine renders_nodes names _ hb.valid ⟨fun r hr => ?_, ?_⟩ h
  · exact hs.within r (List.mem_append_right _ hr)
  · exact (List.pairwise_append.mp hs.apart).2.1

theorem renders_normalised {body : Template Node} (hb : body.Fits text)
    (hfit : ∀ h ∈ body.holes, h.Fits text) (h : ∀ n ∈ body.holes, NodeRenders text names n) :
    Renders text body.range (normalisedText text names body)
      (Usage.replacements body ++ body.holes.flatMap (editsIn names)) := by
  have hparts : body.segments.map (fun s => (s.range, Segment.normalize s.raw)) ++
      partsOf text names body.holes =
      (body.segments.map segmentPart ++ body.holes.map (nodePart text names)).map Part.placed := by
    simp [partsOf_eq, Part.placed, segmentPart, Function.comp_def]
  rw [normalisedText, hparts]
  refine (renders_restate _ hb.valid ?_ ?_).congr ?_
  · simpa [nodePart, segmentPart, Function.comp_def] using hb.siblings hfit
  · intro p hp
    rcases List.mem_append.mp hp with hp | hp
    · obtain ⟨s, hs, rfl⟩ := List.mem_map.mp hp
      exact renders_segment (hb.segments s hs).1 (hb.segments s hs).2
    · obtain ⟨n, hn, rfl⟩ := List.mem_map.mp hp
      exact (h n hn).alone
  · intro e
    simp only [List.mem_append, List.flatMap_append, mem_replacements, List.mem_flatMap,
      List.mem_map, exists_exists_and_eq_and, nodePart]

section
variable {r : Span} {tag : Node} {typeArguments : Option Node} {body : Template Node}

theorem renders_around (h : (Node.tagged r tag typeArguments body).Fits text)
    (hT : ∀ t ∈ typeArguments, NodeRenders text names t) {tagText bodyText : List Char}
    {tagOwn bodyOwn : List Edit} (htag : Renders text tag.range tagText tagOwn)
    (hbody : Renders text body.range bodyText bodyOwn) :
    Renders text r
      (restate text r ((tag.range, tagText) :: partsOfOption text names typeArguments ++
        [(body.range, bodyText)]))
      (tagOwn ++ typeArguments.toList.flatMap (editsIn names) ++ bodyOwn) := by
  have hparts : (tag.range, tagText) :: partsOfOption text names typeArguments ++
      [(body.range, bodyText)] = (⟨tag.range, tagText, tagOwn⟩ ::
        (typeArguments.toList.map (nodePart text names) ++
          [⟨body.range, bodyText, bodyOwn⟩] : List Part)).map Part.placed := by
    simp [partsOfOption_eq, Part.placed]
  rw [hparts]
  refine (renders_restate _ (fits_tagged.mp h).1 ?_ ?_).congr ?_
  · simpa [nodePart, Function.comp_def] using siblings_of_tagged h
  · exact forall_mem_around.mpr ⟨htag, fun t ht => (hT t ht).alone, hbody⟩
  · simp [nodePart, List.flatMap_append]

theorem tagSpan_fits (h : (Node.tagged r tag typeArguments body).Fits text) :
    (tagSpan tag typeArguments).isValidIn text = true ∧
      Siblings r [tagSpan tag typeArguments, body.range] ∧
      ∀ t ∈ typeArguments, t.range.Within (tagSpan tag typeArguments) := by
  obtain ⟨-, hseq, ht, hT, hb, -⟩ := fits_tagged.mp h
  have hs := siblings_of_tagged h
  obtain ⟨htag, -, hstart, hstop⟩ := Span.isValidIn_iff.mp ht.valid
  cases typeArguments with
  | none => exact ⟨ht.valid, hs, by simp⟩
  | some t =>
    obtain ⟨ht, htlen, -, htstop⟩ := Span.isValidIn_iff.mp (hT t rfl).valid
    have hbody := (Span.isValidIn_iff.mp hb.valid).1
    obtain ⟨-, htt, htb, -⟩ := hseq
    simp only at htt htb
    refine ⟨?_, ?_, ?_⟩
    · exact Span.isValidIn_iff.mpr ⟨by simp [tagSpan]; omega, htlen, hstart, htstop⟩
    · constructor
      · intro s hs'
        rcases List.mem_cons.mp hs' with rfl | hs'
        · exact ⟨(hs.within _ List.mem_cons_self).1, (hs.within t.range (by simp)).2⟩
        · exact hs.within s (by simp [List.mem_singleton.mp hs'])
      · exact List.pairwise_pair.mpr (Or.inl htb)
    · rintro u hu
      rw [← Option.some.inj hu]
      exact ⟨by simp [tagSpan]; omega, Nat.le_refl _⟩

/-- The tag of a marked template goes together with all that stands in its type arguments. -/
theorem renders_marked (h : (Node.tagged r tag typeArguments body).Fits text)
    (hT : ∀ t ∈ typeArguments, NodeRenders text names t) {bodyText : List Char}
    {bodyOwn : List Edit} (hbody : Renders text body.range bodyText bodyOwn) :
    Renders text r (restate text r [(tagSpan tag typeArguments, []), (body.range, bodyText)])
      (.delete (tagSpan tag typeArguments) ::
        (typeArguments.toList.flatMap (editsIn names) ++ bodyOwn)) := by
  obtain ⟨hv, hs, hw⟩ := tagSpan_fits h
  have htag : Renders text (tagSpan tag typeArguments) []
      (.delete (tagSpan tag typeArguments) :: typeArguments.toList.flatMap (editsIn names)) := by
    apply renders_deleted _ hv
    · intro e he
      obtain ⟨t, ht, he⟩ := List.mem_flatMap.mp he
      have ht := Option.mem_toList.mp ht
      exact ((hT t ht).alone.within e he).trans (hw t ht)
    · intro e he
      obtain ⟨t, ht, he⟩ := List.mem_flatMap.mp he
      exact (hT t (Option.mem_toList.mp ht)).alone.neutral e he
  have hparts := renders_restate [⟨_, _, _⟩, ⟨_, _, _⟩] (fits_tagged.mp h).1 hs
    (List.forall_mem_cons.mpr
      ⟨htag, List.forall_mem_cons.mpr ⟨hbody, fun _ hp => absurd hp List.not_mem_nil⟩⟩)
  exact hparts.congr (by simp)

end

theorem node_renders {n : Node} (h : n.Fits text) : NodeRenders text names n := by
  induction n using Node.induction with
  | identifier r name =>
    have hr := renders_nodes names [] h ⟨by simp, List.Pairwise.nil⟩ (by simp)
    exact ⟨hr, hr⟩
  | template body ih =>
    obtain ⟨hb, hfit⟩ := fits_template.mp h
    have hown : ∀ e, e ∈ editsIn names (.template body) ↔
        e ∈ body.holes.flatMap (editsIn names) := by simp [mem_editsIn_template]
    have hr := (renders_plain hb hfit fun n hn => ih n hn (hfit n hn)).congr hown
    exact ⟨hr, hr⟩
  | importing d ih =>
    obtain ⟨hv, hs, hfit⟩ := fits_importing.mp h
    have hown : ∀ e, e ∈ editsIn names (.importing d) ↔
        e ∈ d.attributes.flatMap (editsIn names) := by simp [mem_editsIn_importing]
    have hr := (renders_nodes names _ hv hs fun n hn => ih n hn (hfit n hn)).congr hown
    exact ⟨hr, hr⟩
  | other kind r children ih =>
    obtain ⟨hv, hs, hfit⟩ := fits_other.mp h
    have hown : ∀ e, e ∈ editsIn names (.other kind r children) ↔
        e ∈ children.flatMap (editsIn names) := by simp [mem_editsIn_other]
    have hr := (renders_nodes names _ hv hs fun n hn => ih n hn (hfit n hn)).congr hown
    exact ⟨hr, hr⟩
  | tagged r tag typeArguments body ihtag ihT ihholes =>
    obtain ⟨-, -, hftag, hfT, hb, hfit⟩ := fits_tagged.mp h
    have htag := ihtag hftag
    have hT : ∀ t ∈ typeArguments, NodeRenders text names t := fun t ht => ihT t ht (hfT t ht)
    have hholes : ∀ n ∈ body.holes, NodeRenders text names n := fun n hn => ihholes n hn (hfit n hn)
    have hplain := renders_plain hb hfit hholes
    have hnormal := renders_normalised hb hfit hholes
    constructor
    · rw [textOf_tagged, if_neg (by simp)]
      by_cases hc : isComposed tag body = true
      · rw [if_pos hc]
        have hclosing : Renders text body.range [] [.delete body.range] :=
          renders_deleted [] hb.valid (by simp) (by simp [Neutral])
        exact (renders_around h hT htag.wrapped hclosing).congr
          fun e => mem_editsIn_of_isComposed hc
      · rw [if_neg hc]
        by_cases hm : isMarked names tag = true
        · rw [if_pos hm]
          exact (renders_marked h hT hnormal).congr fun e => mem_editsIn_of_isMarked hm
        · rw [if_neg hm]
          exact (renders_around h hT htag.alone hplain).congr
            fun e => mem_editsIn_of_unmarked (Bool.not_eq_true _ ▸ hc) (Bool.not_eq_true _ ▸ hm)
    · rw [textOf_tagged, if_pos rfl]
      have hopening : Renders text tag.range [] [.delete tag.range] :=
        renders_deleted [] hftag.valid (by simp) (by simp [Neutral])
      exact (renders_around h hT hopening hnormal).congr fun e => mem_wrappedEdits

theorem importOf?_eq_some {n : Node} {d : ImportDeclaration Node} :
    importOf? n = some d ↔ n = .importing d := by
  cases n <;> simp [importOf?]

theorem mem_imports {m : Module} {d : ImportDeclaration Node} :
    d ∈ imports m ↔ .importing d ∈ m.items ∧ isMarkerImport d = true := by
  simp [imports, importOf?_eq_some]

def itemPart (text : List Char) (names : List String) (n : Node) : Part :=
  ⟨n.range, if isRemoved n then [] else textOf text names false n,
    if isRemoved n then .delete n.range :: editsIn names n else editsIn names n⟩

theorem renders_item {n : Node} (h : n.Fits text) :
    Renders text n.range (itemPart text names n).text (itemPart text names n).own := by
  have hn : Renders text n.range (textOf text names false n) (editsIn names n) :=
    (node_renders h).alone
  by_cases hr : isRemoved n = true
  · simp only [itemPart, hr, if_true]
    exact renders_deleted _ hn.valid hn.within hn.neutral
  · simp only [itemPart, hr]
    exact hn

theorem mem_own_items (text : List Char) {m : Module} {e : Edit} :
    e ∈ (m.items.map (itemPart text (Marker.names m))).flatMap Part.own ↔ e ∈ edits m := by
  rw [mem_edits]
  simp only [List.mem_flatMap, List.mem_map, exists_exists_and_eq_and]
  constructor
  · rintro ⟨n, hn, he⟩
    by_cases hr : isRemoved n = true
    · simp only [itemPart, hr, if_true, List.mem_cons] at he
      obtain ⟨d, hd, hm⟩ := (Option.any_eq_true _ _).mp hr
      rw [importOf?_eq_some] at hd
      subst hd
      exact he.imp (fun he => ⟨d, mem_imports.mpr ⟨hn, hm⟩, he⟩) fun he => ⟨_, hn, he⟩
    · simp only [itemPart, hr] at he
      exact Or.inr ⟨n, hn, he⟩
  · rintro (⟨d, hd, rfl⟩ | ⟨n, hn, he⟩)
    · obtain ⟨hn, hm⟩ := mem_imports.mp hd
      refine ⟨_, hn, ?_⟩
      have hr : isRemoved (.importing d) = true := hm
      simp only [itemPart, hr, if_true]
      exact List.mem_cons_self
    · refine ⟨n, hn, ?_⟩
      by_cases hr : isRemoved n = true
      · simp only [itemPart, hr, if_true]
        exact List.mem_cons_of_mem _ he
      · simp only [itemPart, hr]
        exact he

theorem module_renders {m : Module} (h : m.Fits text) :
    Renders text ⟨0, Text.byteLength text⟩ (textOfModule text m) (edits m) := by
  have hv : Span.isValidIn text ⟨0, Text.byteLength text⟩ = true :=
    Span.isValidIn_iff.mpr ⟨Nat.zero_le _, Nat.le_refl _, Text.isBoundary_zero _,
      Text.isBoundary_end _⟩
  have hparts : m.items.map (fun n =>
      (n.range, if isRemoved n then [] else textOf text (Marker.names m) false n)) =
      (m.items.map (itemPart text (Marker.names m))).map Part.placed := by
    simp [Part.placed, itemPart, Function.comp_def]
  rw [textOfModule, hparts]
  refine (renders_restate _ hv ?_ ?_).congr fun e => (mem_own_items text).symm
  · simpa [itemPart, Function.comp_def] using h.siblings
  · intro p hp
    obtain ⟨n, hn, rfl⟩ := List.mem_map.mp hp
    exact renders_item (h.items n hn)

/-- Whenever the edits of a tree that fits its document can be applied, their result is the text
that the rewritten tree stands for. -/
theorem code_eq_textOfModule {id : String} {m : Module} {resolution : Option Resolution}
    {edited : Edited} (hfit : m.Fits text)
    (h : Edited.ofEdits id text (edits m) resolution = .ok edited) :
    edited.code = textOfModule text m := by
  have hrender := module_renders hfit
  cases hcut : cut text (edits m) with
  | error fault => simp [Edited.ofEdits, hcut, bind, Except.bind] at h
  | ok ps =>
    simp only [Edited.ofEdits, hcut, bind, Except.bind, pure, Except.pure, Except.ok.injEq] at h
    have howns : Owns (edits m) ⟨0, Text.byteLength text⟩ (edits m) :=
      ⟨fun _ he => he, fun _ he _ _ _ => he⟩
    calc edited.code = ps.flatMap Piece.output := by rw [← h]
      _ = emittedBetween (edits m) text 0 (Text.byteLength text) :=
        flatMap_output_of_cut hcut hrender.neutral
      _ = textOfModule text m :=
        (hrender.eq _ (accepted_of_cut hcut) hrender.neutral howns).symm

def nestedText : List Char :=
  "import d from 'rollup-plugin-dedent';d<T>`\n a$\x7b``` b```\x7d`".toList

def nestedMarkers : Module :=
  ⟨[.importing ⟨⟨0, 37⟩, "rollup-plugin-dedent", [⟨.byDefault, "d"⟩], []⟩,
    .other .statement ⟨37, 57⟩
      [.tagged ⟨37, 57⟩ (.identifier ⟨37, 38⟩ "d")
        (some (.other .typeArguments ⟨38, 41⟩ [.other .type ⟨39, 40⟩ [.other .name ⟨39, 40⟩ []]]))
        ⟨⟨41, 57⟩, [⟨⟨42, 45⟩, "\n a".toList⟩, ⟨⟨56, 56⟩, []⟩],
          [.tagged ⟨47, 55⟩
            (.tagged ⟨47, 53⟩ (.template ⟨⟨47, 49⟩, [⟨⟨48, 48⟩, []⟩], []⟩) none
              ⟨⟨49, 53⟩, [⟨⟨50, 52⟩, " b".toList⟩], []⟩)
            none ⟨⟨53, 55⟩, [⟨⟨54, 54⟩, []⟩], []⟩]⟩]]⟩

theorem code_of_nestedMarkers :
    nestedMarkers.Fits nestedText ∧
      Edited.ofEdits "a.ts" nestedText (edits nestedMarkers) none =
        .ok ⟨"`a$\x7b`b`\x7d`".toList, none⟩ ∧
      "`a$\x7b`b`\x7d`".toList = textOfModule nestedText nestedMarkers := by
  have hfit : nestedMarkers.Fits nestedText := by decide +kernel
  have hcode : Edited.ofEdits "a.ts" nestedText (edits nestedMarkers) none =
      .ok ⟨"`a$\x7b`b`\x7d`".toList, none⟩ := by decide +kernel
  exact ⟨hfit, hcode, code_eq_textOfModule hfit hcode⟩

end Outdent.Marker.Reference
