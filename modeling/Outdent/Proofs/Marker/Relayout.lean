import Outdent.Proofs.Edit.Shift
import Outdent.Proofs.Marker.Agreement
import Outdent.Proofs.Marker.RewrittenTree
import Outdent.Proofs.Rewrite
/-! # The rewritten tree fits the result

With its spans shifted to where the edits leave them, the rewritten tree fits the text that the
edits make: nodes keep their order, a segment is written as the result has it, and a stretch without
edits reads as before. -/
namespace Outdent.Marker.Reference

open Outdent.Syntax Outdent.Edit

variable {text : List Char} {names : List String} {es : List Edit}

/-- The rewritten form of a node fits the result, within where the node ends up. -/
def Relaid (es : List Edit) (text : List Char) (names : List String) (wrapped : Bool)
    (n : Node) : Prop :=
  (rewritten (shiftSpan es text) names wrapped n).Fits (outcome es text) ∧
    (rewritten (shiftSpan es text) names wrapped n).range.Within (shiftSpan es text n.range)

theorem owns_nodes {r : Span} {ns : List Node} (hs : Siblings r (ns.map (·.range)))
    (hfit : ∀ n ∈ ns, n.Fits text) (ho : Owns es r (ns.flatMap (editsIn names))) :
    ∀ n ∈ ns, Owns es n.range (editsIn names n) := by
  intro n hn
  have hparts : Owns es r ((ns.map fun n => (n.range, editsIn names n)).flatMap Prod.snd) := by
    simpa [List.flatMap_map] using ho
  have howns := hparts.part (by simpa [Function.comp_def] using hs) fun p hp => by
    obtain ⟨m, hm, rfl⟩ := List.mem_map.mp hp
    exact (node_renders (hfit m hm)).alone.within
  exact howns _ (List.mem_map_of_mem hn)

theorem owns_template {body : Template Node} (hb : body.Fits text)
    (hfit : ∀ n ∈ body.holes, n.Fits text) {own : Segment → List Edit}
    (hw : ∀ s ∈ body.segments, ∀ e ∈ own s, e.range.Within s.range)
    (ho : Owns es body.range
      (body.segments.flatMap own ++ body.holes.flatMap (editsIn names))) :
    (∀ s ∈ body.segments, Owns es s.range (own s)) ∧
      ∀ n ∈ body.holes, Owns es n.range (editsIn names n) := by
  have hparts : Owns es body.range ((body.segments.map (fun s => (s.range, own s)) ++
      body.holes.map fun n => (n.range, editsIn names n)).flatMap Prod.snd) := by
    simpa [List.flatMap_append, List.flatMap_map] using ho
  have howns := hparts.part (by simpa [Function.comp_def] using hb.siblings hfit) fun p hp => by
    rcases List.mem_append.mp hp with hp | hp
    · obtain ⟨s, hs, rfl⟩ := List.mem_map.mp hp
      exact hw s hs
    · obtain ⟨n, hn, rfl⟩ := List.mem_map.mp hp
      exact (node_renders (hfit n hn)).alone.within
  exact ⟨fun s hs => howns _ (List.mem_append_left _ (List.mem_map_of_mem hs)),
    fun n hn => howns _ (List.mem_append_right _ (List.mem_map_of_mem hn))⟩

theorem template_fits_outcome {body : Template Node} (hb : body.Fits text)
    (hfit : ∀ n ∈ body.holes, n.Fits text) {raw : Segment → List Char}
    (hraw : ∀ s ∈ body.segments, raw s = emittedBetween es text s.range.start s.range.stop)
    (hholes : ∀ n ∈ body.holes, Relaid es text names false n) :
    Template.Fits (outcome es text) ⟨shiftSpan es text body.range,
      body.segments.map (fun s => ⟨shiftSpan es text s.range, raw s⟩),
      body.holes.map (rewritten (shiftSpan es text) names false)⟩ := by
  obtain ⟨hcount, hseq⟩ := hb.alternates
  constructor
  · exact shiftSpan_valid hb.valid
  · refine ⟨by simpa using hcount, ?_⟩
    have hvalid : ∀ r ∈ interleave (body.segments.map (·.range)) (body.holes.map (·.range)),
        r.isValidIn text = true := by
      intro r hr
      have hr := (perm_interleave _ _).mem_iff.mp hr
      rcases List.mem_append.mp hr with hr | hr
      · obtain ⟨s, hs, rfl⟩ := List.mem_map.mp hr
        exact (hb.segments s hs).1
      · obtain ⟨n, hn, rfl⟩ := List.mem_map.mp hr
        exact (hfit n hn).valid
    have hshifted : Sequence (shift es text body.range.start) (shift es text body.range.stop) _ :=
      sequence_shift hb.valid hvalid hseq
    rw [map_interleave] at hshifted
    refine Sequence.shrink hshifted (forall₂_interleave ?_ ?_)
    · simp only [List.map_map, Function.comp_def]
      exact List.forall₂_same.mpr fun s _ => Span.Within.refl s
    · simp only [List.map_map, List.forall₂_map_left_iff, List.forall₂_map_right_iff,
        List.forall₂_same]
      exact fun n hn => (hholes n hn).2
  · intro s hs
    obtain ⟨t, ht, rfl⟩ := List.mem_map.mp hs
    have hv := (hb.segments t ht).1
    obtain ⟨hle, -, hstart, hstop⟩ := Span.isValidIn_iff.mp hv
    refine ⟨shiftSpan_valid hv, ?_⟩
    simp only [shiftSpan]
    rw [slice_shift hstart hstop hle, hraw t ht]

theorem emittedBetween_of_owns_nil {r : Span} (hv : r.isValidIn text = true)
    (ho : Owns es r []) :
    emittedBetween es text r.start r.stop = Text.slice r.start r.stop text := by
  obtain ⟨hle, -, hstart, hstop⟩ := Span.isValidIn_iff.mp hv
  refine emittedBetween_untouched hstart hstop hle fun o hlo hhi e he hc => ?_
  exact List.not_mem_nil (ho.all e he o hc ⟨hlo, hhi⟩)

theorem fits_plainTemplate {body : Template Node} (hb : body.Fits text)
    (hfit : ∀ n ∈ body.holes, n.Fits text)
    (hholes : ∀ n ∈ body.holes, Owns es n.range (editsIn names n) → Relaid es text names false n)
    (ho : Owns es body.range (body.holes.flatMap (editsIn names))) :
    (Node.template (plainTemplate (shiftSpan es text) names body)).Fits (outcome es text) := by
  have hown : body.segments.flatMap (fun _ => ([] : List Edit)) = [] := by simp
  obtain ⟨hsegments, hnodes⟩ := owns_template hb hfit (fun _ _ e he => absurd he List.not_mem_nil)
    (ho.congr fun e => by rw [hown, List.nil_append])
  have hrelaid : ∀ n ∈ body.holes, Relaid es text names false n :=
    fun n hn => hholes n hn (hnodes n hn)
  refine fits_template.mpr ⟨template_fits_outcome hb hfit (fun s hs => ?_) hrelaid, fun m hm => ?_⟩
  · obtain ⟨hv, hraw⟩ := hb.segments s hs
    rw [emittedBetween_of_owns_nil hv (hsegments s hs), hraw]
  · obtain ⟨n, hn, rfl⟩ := List.mem_map.mp hm
    exact (hrelaid n hn).1

theorem fits_normalisedTemplate (ha : Accepted text es) (hneutral : Neutral es)
    {body : Template Node} (hb : body.Fits text) (hfit : ∀ n ∈ body.holes, n.Fits text)
    (hholes : ∀ n ∈ body.holes, Owns es n.range (editsIn names n) → Relaid es text names false n)
    (ho : Owns es body.range
      (Usage.replacements body ++ body.holes.flatMap (editsIn names))) :
    (Node.template (normalisedTemplate (shiftSpan es text) names body)).Fits (outcome es text) := by
  have hrenders : ∀ s ∈ body.segments,
      Renders text (segmentPart s).span (segmentPart s).text (segmentPart s).own :=
    fun s hs => renders_segment (hb.segments s hs).1 (hb.segments s hs).2
  have hedits : ∀ e, e ∈ body.segments.flatMap (fun s => (segmentPart s).own) ++
      body.holes.flatMap (editsIn names) ↔
      e ∈ Usage.replacements body ++ body.holes.flatMap (editsIn names) := fun e => by
    simp only [List.mem_append, mem_replacements, List.mem_flatMap]
  obtain ⟨hsegments, hnodes⟩ := owns_template hb hfit (fun s hs => (hrenders s hs).within)
    (ho.congr hedits)
  have hrelaid : ∀ n ∈ body.holes, Relaid es text names false n :=
    fun n hn => hholes n hn (hnodes n hn)
  refine fits_template.mpr ⟨template_fits_outcome hb hfit (fun s hs => ?_) hrelaid, fun m hm => ?_⟩
  · exact (hrenders s hs).eq es ha hneutral (hsegments s hs)
  · obtain ⟨n, hn, rfl⟩ := List.mem_map.mp hm
    exact (hrelaid n hn).1

section
variable {r : Span} {tag : Node} {typeArguments : Option Node} {body : Template Node}

theorem owns_tagged (h : (Node.tagged r tag typeArguments body).Fits text)
    {tagOwn bodyOwn : List Edit} (htag : ∀ e ∈ tagOwn, e.range.Within tag.range)
    (hbody : ∀ e ∈ bodyOwn, e.range.Within body.range)
    (ho : Owns es r (tagOwn ++ typeArguments.toList.flatMap (editsIn names) ++ bodyOwn)) :
    Owns es tag.range tagOwn ∧ (∀ t ∈ typeArguments, Owns es t.range (editsIn names t)) ∧
      Owns es body.range bodyOwn := by
  obtain ⟨-, -, -, hT, -, -⟩ := fits_tagged.mp h
  have hparts : Owns es r (((tag.range, tagOwn) ::
      (typeArguments.toList.map (fun t => (t.range, editsIn names t)) ++
        [(body.range, bodyOwn)])).flatMap Prod.snd) := by
    simpa [List.flatMap_append, List.flatMap_map] using ho
  have howns := hparts.part (by simpa [Function.comp_def] using siblings_of_tagged h) <|
    forall_mem_around.mpr ⟨htag, fun t ht => (node_renders (hT t ht)).alone.within, hbody⟩
  exact forall_mem_around.mp howns

theorem tagged_fits_outcome (h : (Node.tagged r tag typeArguments body).Fits text)
    (htag : Relaid es text names false tag)
    (hT : ∀ t ∈ typeArguments, Relaid es text names false t)
    (hbody : (Node.template (plainTemplate (shiftSpan es text) names body)).Fits
      (outcome es text)) :
    (Node.tagged (shiftSpan es text r) (rewritten (shiftSpan es text) names false tag)
      (typeArguments.map (rewritten (shiftSpan es text) names false))
      (plainTemplate (shiftSpan es text) names body)).Fits (outcome es text) := by
  obtain ⟨hv, hseq, hftag, hfT, hb, -⟩ := fits_tagged.mp h
  have hvalid : ∀ s ∈ tag.range :: (typeArguments.toList.map (·.range) ++ [body.range]),
      s.isValidIn text = true :=
    forall_mem_around.mpr ⟨hftag.valid, fun t ht => (hfT t ht).valid, hb.valid⟩
  have hshifted : Sequence (shift es text r.start) (shift es text r.stop) _ :=
    sequence_shift hv hvalid hseq
  obtain ⟨hfits, hholes⟩ := fits_template.mp hbody
  refine fits_tagged.mpr ⟨shiftSpan_valid hv, Sequence.shrink hshifted ?_, htag.1, ?_, hfits,
    hholes⟩
  · cases typeArguments with
    | none => exact .cons htag.2 (.cons (Span.Within.refl _) .nil)
    | some t => exact .cons htag.2 (.cons (hT t rfl).2 (.cons (Span.Within.refl _) .nil))
  · intro m hm
    obtain ⟨t, ht, rfl⟩ := Option.map_eq_some_iff.mp hm
    exact (hT t ht).1

theorem owns_marked (h : (Node.tagged r tag typeArguments body).Fits text) {bodyOwn : List Edit}
    (hbody : ∀ e ∈ bodyOwn, e.range.Within body.range)
    (ho : Owns es r (.delete (tagSpan tag typeArguments) ::
      (typeArguments.toList.flatMap (editsIn names) ++ bodyOwn))) : Owns es body.range bodyOwn := by
  obtain ⟨-, hs, hw⟩ := tagSpan_fits h
  obtain ⟨-, -, -, hT, -, -⟩ := fits_tagged.mp h
  have hparts : Owns es r ([(tagSpan tag typeArguments, .delete (tagSpan tag typeArguments) ::
      typeArguments.toList.flatMap (editsIn names)), (body.range, bodyOwn)].flatMap Prod.snd) := by
    simpa using ho
  have howns := hparts.part hs fun p hp => by
    simp only [List.mem_cons, List.not_mem_nil, or_false] at hp
    rcases hp with rfl | rfl
    · intro e he
      rcases List.mem_cons.mp he with rfl | he
      · exact Span.Within.refl _
      · obtain ⟨t, ht, he⟩ := List.mem_flatMap.mp he
        have ht := Option.mem_toList.mp ht
        exact ((node_renders (hT t ht)).alone.within e he).trans (hw t ht)
    · exact hbody
  exact howns (body.range, bodyOwn) (by simp)

end

theorem siblings_relaid {r : Span} {ns : List Node} (hr : r.isValidIn text = true)
    (hs : Siblings r (ns.map (·.range))) (hfit : ∀ n ∈ ns, n.Fits text)
    (h : ∀ n ∈ ns, Relaid es text names false n) :
    Siblings (shiftSpan es text r)
      ((ns.map (rewritten (shiftSpan es text) names false)).map (·.range)) := by
  have hvalid : ∀ s ∈ ns.map (·.range), s.isValidIn text = true := by
    intro s hs'
    obtain ⟨n, hn, rfl⟩ := List.mem_map.mp hs'
    exact (hfit n hn).valid
  have hshifted : Siblings (shiftSpan es text r) ((ns.map (·.range)).map (shiftSpan es text)) :=
    siblings_shift hr hvalid hs
  rw [List.map_map] at hshifted ⊢
  exact hshifted.shrink fun n hn => (h n hn).2

theorem relaid_nodes {r : Span} {ns : List Node} (hr : r.isValidIn text = true)
    (hs : Siblings r (ns.map (·.range))) (hfit : ∀ n ∈ ns, n.Fits text)
    (ho : Owns es r (ns.flatMap (editsIn names)))
    (h : ∀ n ∈ ns, Owns es n.range (editsIn names n) → Relaid es text names false n) :
    Siblings (shiftSpan es text r)
        ((ns.map (rewritten (shiftSpan es text) names false)).map (·.range)) ∧
      ∀ m ∈ ns.map (rewritten (shiftSpan es text) names false), m.Fits (outcome es text) := by
  have howns := owns_nodes hs hfit ho
  have hnodes : ∀ n ∈ ns, Relaid es text names false n := fun n hn => h n hn (howns n hn)
  constructor
  · exact siblings_relaid hr hs hfit hnodes
  · intro m hm
    obtain ⟨n, hn, rfl⟩ := List.mem_map.mp hm
    exact (hnodes n hn).1

section
variable {r : Span} {tag : Node} {typeArguments : Option Node} {body : Template Node}

theorem relaid_wrapped (ha : Accepted text es) (hneutral : Neutral es)
    (h : (Node.tagged r tag typeArguments body).Fits text)
    (hholes : ∀ n ∈ body.holes, Owns es n.range (editsIn names n) → Relaid es text names false n)
    (ho : Owns es body.range (Usage.replacements body ++ body.holes.flatMap (editsIn names))) :
    (Node.template (normalisedTemplate (shiftSpan es text) names body)).Fits (outcome es text) ∧
      (normalisedTemplate (shiftSpan es text) names body).range.Within (shiftSpan es text r) := by
  obtain ⟨hv, -, -, -, hb, hfit⟩ := fits_tagged.mp h
  have hwithin : body.range.Within r := (siblings_of_tagged h).within _ (by simp)
  exact ⟨fits_normalisedTemplate ha hneutral hb hfit hholes ho,
    shiftSpan_within hb.valid hv hwithin⟩

theorem relaid_tagged (ha : Accepted text es) (hneutral : Neutral es)
    (h : (Node.tagged r tag typeArguments body).Fits text)
    (htag : (Owns es tag.range (editsIn names tag) → Relaid es text names false tag) ∧
      (Owns es tag.range (wrappedEdits names tag) → Relaid es text names true tag))
    (hT : ∀ t ∈ typeArguments, Owns es t.range (editsIn names t) → Relaid es text names false t)
    (hholes : ∀ n ∈ body.holes, Owns es n.range (editsIn names n) → Relaid es text names false n)
    (ho : Owns es r (editsIn names (.tagged r tag typeArguments body))) :
    Relaid es text names false (.tagged r tag typeArguments body) := by
  obtain ⟨hv, -, hftag, hfT, hb, hfit⟩ := fits_tagged.mp h
  have hrenders : ∀ n ∈ body.holes, NodeRenders text names n :=
    fun n hn => node_renders (hfit n hn)
  rw [Relaid, rewritten_tagged, if_neg (by simp)]
  by_cases hc : isComposed tag body = true
  · rw [if_pos hc]
    obtain ⟨hown, -, -⟩ := owns_tagged h (node_renders hftag).wrapped.within
      (by simp [Span.Within.refl, Edit.range])
      (ho.congr fun e => (mem_editsIn_of_isComposed hc).symm)
    obtain ⟨hfits, hwithin⟩ := htag.2 hown
    have htagWithin : tag.range.Within r := (siblings_of_tagged h).within _ (by simp)
    exact ⟨hfits, hwithin.trans (shiftSpan_within hftag.valid hv htagWithin)⟩
  · rw [if_neg hc]
    by_cases hm : isMarked names tag = true
    · rw [if_pos hm]
      have hown := owns_marked h (renders_normalised hb hfit hrenders).within
        (ho.congr fun e => (mem_editsIn_of_isMarked hm).symm)
      exact relaid_wrapped ha hneutral h hholes hown
    · rw [if_neg hm]
      obtain ⟨hown, hownT, hownBody⟩ := owns_tagged h (node_renders hftag).alone.within
        (renders_plain hb hfit hrenders).within
        (ho.congr fun e => (mem_editsIn_of_unmarked (Bool.not_eq_true _ ▸ hc)
          (Bool.not_eq_true _ ▸ hm)).symm)
      have hfits := fits_plainTemplate hb hfit hholes hownBody
      exact ⟨tagged_fits_outcome h (htag.1 hown) (fun t ht => hT t ht (hownT t ht)) hfits,
        Span.Within.refl _⟩

end

/-- By induction over the tree: whatever edits stand around a node, its rewritten form fits the
result. -/
theorem relaid (ha : Accepted text es) (hneutral : Neutral es) {n : Node} (h : n.Fits text) :
    (Owns es n.range (editsIn names n) → Relaid es text names false n) ∧
      (Owns es n.range (wrappedEdits names n) → Relaid es text names true n) := by
  induction n using Node.induction with
  | identifier r name =>
    have hv : (shiftSpan es text r).isValidIn (outcome es text) = true := shiftSpan_valid h
    exact ⟨fun _ => ⟨hv, Span.Within.refl _⟩, fun _ => ⟨hv, Span.Within.refl _⟩⟩
  | template body ih =>
    obtain ⟨hb, hfit⟩ := fits_template.mp h
    have hrelaid : ∀ wrapped, Owns es body.range (editsIn names (.template body)) →
        Relaid es text names wrapped (.template body) := by
      intro wrapped ho
      have hholes := ho.congr fun e => (by simp [mem_editsIn_template] :
        e ∈ body.holes.flatMap (editsIn names) ↔ e ∈ editsIn names (.template body))
      have hfits := fits_plainTemplate hb hfit (fun n hn => (ih n hn (hfit n hn)).1) hholes
      rw [Relaid, rewritten_template]
      exact ⟨hfits, Span.Within.refl _⟩
    exact ⟨hrelaid false, hrelaid true⟩
  | importing d ih =>
    obtain ⟨hv, hs, hfit⟩ := fits_importing.mp h
    have hrelaid : ∀ wrapped, Owns es d.range (editsIn names (.importing d)) →
        Relaid es text names wrapped (.importing d) := by
      intro wrapped ho
      have hattributes := ho.congr fun e => (by simp [mem_editsIn_importing] :
        e ∈ d.attributes.flatMap (editsIn names) ↔ e ∈ editsIn names (.importing d))
      have hnodes := relaid_nodes hv hs hfit hattributes fun n hn => (ih n hn (hfit n hn)).1
      rw [Relaid, rewritten_importing]
      exact ⟨fits_importing.mpr ⟨shiftSpan_valid hv, hnodes⟩, Span.Within.refl _⟩
    exact ⟨hrelaid false, hrelaid true⟩
  | other kind r children ih =>
    obtain ⟨hv, hs, hfit⟩ := fits_other.mp h
    have hrelaid : ∀ wrapped, Owns es r (editsIn names (.other kind r children)) →
        Relaid es text names wrapped (.other kind r children) := by
      intro wrapped ho
      have hchildren := ho.congr fun e => (by simp [mem_editsIn_other] :
        e ∈ children.flatMap (editsIn names) ↔ e ∈ editsIn names (.other kind r children))
      have hnodes := relaid_nodes hv hs hfit hchildren fun n hn => (ih n hn (hfit n hn)).1
      rw [Relaid, rewritten_other]
      exact ⟨fits_other.mpr ⟨shiftSpan_valid hv, hnodes⟩, Span.Within.refl _⟩
    exact ⟨hrelaid false, hrelaid true⟩
  | tagged r tag typeArguments body ihtag ihT ihholes =>
    obtain ⟨-, -, hftag, hfT, hb, hfit⟩ := fits_tagged.mp h
    have hholes : ∀ n ∈ body.holes, Owns es n.range (editsIn names n) →
        Relaid es text names false n := fun n hn => (ihholes n hn (hfit n hn)).1
    constructor
    · exact relaid_tagged ha hneutral h (ihtag hftag) (fun t ht => (ihT t ht (hfT t ht)).1) hholes
    · intro ho
      have hrenders : ∀ n ∈ body.holes, NodeRenders text names n :=
        fun n hn => node_renders (hfit n hn)
      have hnormal := renders_normalised hb hfit hrenders
      obtain ⟨-, -, hown⟩ := owns_tagged h (by simp [Span.Within.refl, Edit.range]) hnormal.within
        (ho.congr fun e => mem_wrappedEdits.symm)
      rw [Relaid, rewritten_tagged, if_pos rfl]
      exact relaid_wrapped ha hneutral h hholes hown

theorem owns_item {m : Module} (h : m.Fits text)
    (ho : Owns es ⟨0, Text.byteLength text⟩ (edits m)) {n : Node} (hn : n ∈ m.items)
    (hkept : isRemoved n = false) : Owns es n.range (editsIn (Marker.names m) n) := by
  have hparts : Owns es ⟨0, Text.byteLength text⟩ (((m.items.map
      (itemPart text (Marker.names m))).map fun p => (p.span, p.own)).flatMap Prod.snd) := by
    refine ho.congr fun e => ?_
    rw [← mem_own_items text, List.flatMap_map]
  have howns := hparts.part (by simpa [itemPart, Function.comp_def] using h.siblings) fun q hq => by
    obtain ⟨p, hp, rfl⟩ := List.mem_map.mp hq
    obtain ⟨k, hk, rfl⟩ := List.mem_map.mp hp
    exact (renders_item (h.items k hk)).within
  have hown := howns _ (List.mem_map_of_mem (List.mem_map_of_mem hn))
  simpa [itemPart, hkept] using hown

theorem rewrittenModule_fits {m : Module} (h : m.Fits text) (ha : Accepted text (edits m)) :
    (rewrittenModule (shiftSpan (edits m) text) m).Fits (outcome (edits m) text) := by
  have hneutral := (module_renders h).neutral
  have howns : Owns (edits m) ⟨0, Text.byteLength text⟩ (edits m) :=
    ⟨fun _ he => he, fun _ he _ _ _ => he⟩
  have hitems : ∀ n ∈ m.items.filter (fun n => !isRemoved n),
      Relaid (edits m) text (Marker.names m) false n := by
    intro n hn
    obtain ⟨hn, hkept⟩ := List.mem_filter.mp hn
    have hown := owns_item h howns hn (by simpa using hkept)
    exact (relaid ha hneutral (h.items n hn)).1 hown
  have hv := (module_renders h).valid
  have hspan : shiftSpan (edits m) text ⟨0, Text.byteLength text⟩ =
      ⟨0, Text.byteLength (outcome (edits m) text)⟩ := by
    simp only [shiftSpan, shift, emittedBetween_self, outcome]
    rfl
  have hsub : (m.items.filter fun n => !isRemoved n).Sublist m.items := List.filter_sublist
  have hsiblings : Siblings ⟨0, Text.byteLength text⟩
      ((m.items.filter fun n => !isRemoved n).map (·.range)) :=
    ⟨fun r hr => h.siblings.within r ((hsub.map _).subset hr),
      h.siblings.apart.sublist (hsub.map _)⟩
  rw [rewrittenModule, rewrittenAll_eq]
  constructor
  · exact hspan ▸ siblings_relaid hv hsiblings
      (fun n hn => h.items n (hsub.subset hn)) hitems
  · exact List.forall_mem_map.mpr fun n hn => (hitems n hn).1

/-- The result of a rewrite is what the edits make of the document, character by character. -/
theorem code_eq_outcome {d : Document} {m : Module} {resolution : Option Resolution}
    {r : Rewritten} (hparse : d.parse = .ok m) (hfit : m.Fits d.text)
    (h : d.rewrite resolution = .ok (some r)) :
    Accepted d.text (edits m) ∧ r.code = outcome (edits m) d.text := by
  obtain ⟨m', edited, hm, -, hedited, rfl⟩ := Document.rewrite_eq_some_iff.mp h
  obtain rfl : m' = m := Except.ok.inj (hm.symm.trans hparse)
  cases hcut : cut d.text (edits m') with
  | error fault => simp [Edited.ofEdits, hcut, bind, Except.bind] at hedited
  | ok ps =>
    simp only [Edited.ofEdits, hcut, bind, Except.bind, pure, Except.pure, Except.ok.injEq]
      at hedited
    subst hedited
    exact ⟨accepted_of_cut hcut, flatMap_output_of_cut hcut (module_renders hfit).neutral⟩

def ReadsAs (d : Document) (form : Module) : Prop := ∃ m, d.parse = .ok m ∧ m.form = form

/-- The rewritten tree lies over the result, and every stretch that no edit touches stands there as
it did. -/
theorem rewrite_lays_out {d : Document} {m : Module} {resolution : Option Resolution}
    {r : Rewritten} (hparse : d.parse = .ok m) (hfit : m.Fits d.text)
    (h : d.rewrite resolution = .ok (some r)) : r.id = d.id ∧
      (rewrittenModule (shiftSpan (edits m) d.text) m).Fits r.code ∧
      ∀ s : Span, s.isValidIn d.text = true →
        (∀ e ∈ edits m, ∀ o, e.range.Covers o → ¬ s.Covers o) →
        Text.slice (shift (edits m) d.text s.start) (shift (edits m) d.text s.stop) r.code =
          Text.slice s.start s.stop d.text := by
  obtain ⟨ha, hcode⟩ := code_eq_outcome hparse hfit h
  obtain ⟨m', edited, -, -, -, rfl⟩ := Document.rewrite_eq_some_iff.mp h
  refine ⟨rfl, hcode ▸ rewrittenModule_fits hfit ha, fun s hs hn => ?_⟩
  obtain ⟨hle, -, hstart, hstop⟩ := Span.isValidIn_iff.mp hs
  rw [hcode, slice_shift hstart hstop hle]
  exact emittedBetween_of_owns_nil hs ⟨fun e he => absurd he List.not_mem_nil,
    fun e he o hc ho => absurd ho (hn e he o hc)⟩

end Outdent.Marker.Reference
