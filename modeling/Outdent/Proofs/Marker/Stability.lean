import Outdent.Proofs.Marker.Rereading
/-! # Rewriting what was rewritten

A rewrite can bring empty templates together that something stood between: where a marked template
loses its last character in front of a tagged template whose own template is empty, the two become
a wrapper. Nothing else in the rewritten tree asks for another rewrite. -/
namespace Outdent.Marker

open Syntax Reference

/-- Whether a template is left without holes and text when its segments lose their indentation. -/
def isBlank (body : Template Node) : Bool :=
  match body with
  | ⟨_, [segment], []⟩ => (Segment.normalize segment.raw).isEmpty
  | _ => false

def wrapsBlank : Node → Bool
  | .tagged _ _ _ inner => isBlank inner
  | _ => false

/-- Whether a node is a usage of the marker of which an empty template remains. -/
def leavesDelimiter (names : List String) : Node → Bool
  | .tagged _ tag _ body =>
    if isComposed tag body then wrapsBlank tag else isMarked names tag && isBlank body
  | _ => false

/-- Whether a tag and a template become the two halves of a template between empty templates. -/
def becomesComposed (names : List String) (tag : Node) (body : Template Node) : Bool :=
  match tag with
  | .tagged _ opening _ inner =>
    leavesDelimiter names opening && Usage.isEmptyDelimiter body &&
      !isComposed opening inner && !isMarked names opening
  | _ => false

mutual

/-- Whether empty templates come together in what remains of a node. -/
def exposes (names : List String) (wrapped : Bool) : Node → Bool
  | .identifier _ _ => false
  | .template ⟨_, _, holes⟩ => exposesAny names holes
  | .importing ⟨_, _, _, attributes⟩ => exposesAny names attributes
  | .other _ _ children => exposesAny names children
  | .tagged _ tag typeArguments ⟨r, segments, holes⟩ =>
    if wrapped then exposesAny names holes
    else if isComposed tag ⟨r, segments, holes⟩ then exposes names true tag
    else if isMarked names tag then exposesAny names holes
    else becomesComposed names tag ⟨r, segments, holes⟩ || exposes names false tag ||
      exposesOption names typeArguments || exposesAny names holes

def exposesAny (names : List String) : List Node → Bool
  | [] => false
  | n :: ns => exposes names false n || exposesAny names ns

def exposesOption (names : List String) : Option Node → Bool
  | none => false
  | some n => exposes names false n

end

def exposesModule (m : Module) : Bool :=
  exposesAny (names m) (m.items.filter fun n => !isRemoved n)

section
variable {names names' : List String} {f : Span → Span}

theorem exposesAny_eq_false_iff {ns : List Node} :
    exposesAny names ns = false ↔ ∀ n ∈ ns, exposes names false n = false := by
  induction ns with
  | nil => simp [exposesAny]
  | cons n ns ih => simp [exposesAny, ih]

theorem exposesOption_eq_false_iff {n : Option Node} :
    exposesOption names n = false ↔ ∀ t ∈ n, exposes names false t = false := by
  cases n <;> simp [exposesOption]

theorem exposes_tagged (wrapped : Bool) (r : Span) (tag : Node) (typeArguments : Option Node)
    (body : Template Node) : exposes names wrapped (.tagged r tag typeArguments body) =
      if wrapped then exposesAny names body.holes
      else if isComposed tag body then exposes names true tag
      else if isMarked names tag then exposesAny names body.holes
      else becomesComposed names tag body || exposes names false tag ||
        exposesOption names typeArguments || exposesAny names body.holes := by
  cases body
  rw [exposes]

def isDelimiter : Node → Bool
  | .template body => Usage.isEmptyDelimiter body
  | _ => false

theorem isComposed_tagged (r : Span) (opening : Node) (typeArguments : Option Node)
    (inner body : Template Node) : isComposed (.tagged r opening typeArguments inner) body =
      (isDelimiter opening && Usage.isEmptyDelimiter body) := by
  cases opening <;> rfl

theorem isEmptyDelimiter_map {g : Segment → Segment} {k : Node → Node} (body : Template Node)
    (hraw : ∀ s, (g s).raw = s.raw) :
    Usage.isEmptyDelimiter ⟨f body.range, body.segments.map g, body.holes.map k⟩ =
      Usage.isEmptyDelimiter body := by
  obtain ⟨r, segments, holes⟩ := body
  cases holes with
  | nil =>
    rcases segments with _ | ⟨s, _ | ⟨s', ss⟩⟩
    · rfl
    · simp only [Usage.isEmptyDelimiter, List.map_cons, List.map_nil, hraw]
    · rfl
  | cons h hs => rcases segments with _ | ⟨s, _ | ⟨s', ss⟩⟩ <;> rfl

theorem isEmptyDelimiter_plainTemplate (body : Template Node) :
    Usage.isEmptyDelimiter (plainTemplate f names body) = Usage.isEmptyDelimiter body :=
  isEmptyDelimiter_map body fun _ => rfl

theorem isEmptyDelimiter_normalisedTemplate (body : Template Node) :
    Usage.isEmptyDelimiter (normalisedTemplate f names body) = isBlank body := by
  obtain ⟨r, segments, holes⟩ := body
  cases holes with
  | nil =>
    rcases segments with _ | ⟨s, _ | ⟨s', ss⟩⟩ <;> rfl
  | cons h hs => rcases segments with _ | ⟨s, _ | ⟨s', ss⟩⟩ <;> rfl

theorem isDelimiter_rewritten (n : Node) : isDelimiter (rewritten f names false n) =
    (leavesDelimiter names n || isDelimiter n) := by
  cases n with
  | identifier r name => rfl
  | template body =>
    rw [rewritten_template]
    exact isEmptyDelimiter_plainTemplate body
  | importing d =>
    rw [rewritten_importing]
    rfl
  | other kind r children =>
    rw [rewritten_other]
    rfl
  | tagged r tag typeArguments body =>
    have hself : isDelimiter (.tagged r tag typeArguments body) = false := rfl
    rw [rewritten_tagged, if_neg (by simp), hself, Bool.or_false, leavesDelimiter]
    by_cases hc : isComposed tag body = true
    · rw [if_pos hc, if_pos hc]
      obtain ⟨r', opening, types, inner, rfl, -⟩ := of?_of_isComposed names typeArguments hc
      rw [rewritten_tagged, if_pos rfl]
      exact isEmptyDelimiter_normalisedTemplate inner
    · rw [if_neg hc, if_neg hc]
      by_cases hm : isMarked names tag = true
      · rw [if_pos hm, hm, Bool.true_and]
        exact isEmptyDelimiter_normalisedTemplate body
      · have hunmarked : isMarked names tag = false := by simpa using hm
        rw [if_neg hm, hunmarked, Bool.false_and]
        rfl

theorem of?_tagged_eq_none_iff {r : Span} {opening : Node} {types typeArguments : Option Node}
    {inner body : Template Node} :
    Usage.of? names (.tagged r opening types inner) typeArguments body = none ↔
      (isDelimiter opening && Usage.isEmptyDelimiter body) = false := by
  cases opening <;> simp [Usage.of?, isDelimiter]

theorem of?_rewritten_eq_none_iff (hsub : ∀ name ∈ names', name ∈ names) {tag : Node}
    (typeArguments : Option Node) {body : Template Node} (hc : isComposed tag body = false)
    (hm : isMarked names tag = false) :
    Usage.of? names' (rewritten f names false tag) typeArguments (plainTemplate f names body) =
      none ↔ becomesComposed names tag body = false := by
  cases tag with
  | identifier r name =>
    have hname : name ∉ names' := fun h => by
      have hin := hsub name h
      simp [isMarked, Node.name?, hin] at hm
    simp [rewritten, Usage.of?, becomesComposed, hname]
  | template opening => simp [rewritten_template, Usage.of?, becomesComposed]
  | importing d => simp [rewritten_importing, Usage.of?, becomesComposed]
  | other kind r children => simp [rewritten_other, Usage.of?, becomesComposed]
  | tagged r opening types inner =>
    rw [isComposed_tagged] at hc
    simp only [rewritten_tagged, becomesComposed]
    by_cases hcomposed : isComposed opening inner = true
    · obtain ⟨r', first, types', inner', rfl, -⟩ := of?_of_isComposed names types hcomposed
      simp [hcomposed, rewritten_tagged, Usage.of?]
    · by_cases hmarked : isMarked names opening = true
      · simp [hcomposed, hmarked, Usage.of?]
      · simp only [hcomposed, hmarked, Bool.false_eq_true, if_false, of?_tagged_eq_none_iff,
          isDelimiter_rewritten, isEmptyDelimiter_plainTemplate]
        by_cases hopening : isDelimiter opening = true
        · have hbody : Usage.isEmptyDelimiter body = false := by simpa [hopening] using hc
          simp [hbody]
        · simp [Bool.not_eq_true _ ▸ hopening]

theorem inNode_tagged_eq_nil_iff {r : Span} {tag : Node} {typeArguments : Option Node}
    {body : Template Node} : Usage.inNode names (.tagged r tag typeArguments body) = [] ↔
      Usage.of? names tag typeArguments body = none ∧ Usage.inNode names tag = [] ∧
        (∀ t ∈ typeArguments, Usage.inNode names t = []) ∧
        ∀ n ∈ body.holes, Usage.inNode names n = [] := by
  simp [Usage.inNode_tagged]

/-- By induction over the tree: a usage remains exactly where empty templates come together. -/
theorem inNode_rewritten_eq_nil_iff (hsub : ∀ name ∈ names', name ∈ names) (wrapped : Bool)
    (n : Node) : Usage.inNode names' (rewritten f names wrapped n) = [] ↔
      exposes names wrapped n = false := by
  induction n using Node.induction generalizing wrapped with
  | identifier r name => simp [rewritten, Usage.inNode, exposes]
  | template body ih =>
    cases body
    simp only [rewritten_template, Usage.inNode_template, plainTemplate, exposes,
      exposesAny_eq_false_iff, List.flatMap_eq_nil_iff, List.forall_mem_map]
    exact forall₂_congr fun n hn => ih n hn false
  | importing d ih =>
    cases d
    simp only [rewritten_importing, Usage.inNode_importing, exposes, exposesAny_eq_false_iff,
      List.flatMap_eq_nil_iff, List.forall_mem_map]
    exact forall₂_congr fun n hn => ih n hn false
  | other kind r children ih =>
    simp only [rewritten_other, Usage.inNode_other, exposes, exposesAny_eq_false_iff,
      List.flatMap_eq_nil_iff, List.forall_mem_map]
    exact forall₂_congr fun n hn => ih n hn false
  | tagged r tag typeArguments body ihtag ihT ihholes =>
    have hnormal : Usage.inNode names' (.template (normalisedTemplate f names body)) = [] ↔
        exposesAny names body.holes = false := by
      simp only [Usage.inNode_template, normalisedTemplate, exposesAny_eq_false_iff,
        List.flatMap_eq_nil_iff, List.forall_mem_map]
      exact forall₂_congr fun n hn => ihholes n hn false
    rw [rewritten_tagged, exposes_tagged]
    split
    · exact hnormal
    · split
      · exact ihtag true
      · split
        · exact hnormal
        · next hc hm =>
          have hof : Usage.of? names' (rewritten f names false tag)
              (typeArguments.map (rewritten f names false)) (plainTemplate f names body) = none ↔
              becomesComposed names tag body = false :=
            of?_rewritten_eq_none_iff hsub _ (Bool.not_eq_true _ ▸ hc) (Bool.not_eq_true _ ▸ hm)
          rw [inNode_tagged_eq_nil_iff, hof, ihtag false]
          simp only [Bool.or_eq_false_iff, exposesOption_eq_false_iff, exposesAny_eq_false_iff,
            plainTemplate, List.forall_mem_map, Option.mem_map, forall_exists_index, and_imp,
            forall_apply_eq_imp_iff₂, and_assoc]
          have hT := forall₂_congr fun t ht => ihT t ht false
          have hholes := forall₂_congr fun n hn => ihholes n hn false
          rw [hT, hholes]

theorem isEmptyDelimiter_move (body : Template Node) :
    Usage.isEmptyDelimiter (body.move f) = Usage.isEmptyDelimiter body :=
  isEmptyDelimiter_map body fun _ => rfl

theorem isDelimiter_move (n : Node) : isDelimiter (n.move f) = isDelimiter n := by
  cases n with
  | identifier r name => rfl
  | template body =>
    rw [move_template]
    exact isEmptyDelimiter_move body
  | importing d =>
    rw [move_importing]
    rfl
  | other kind r children =>
    rw [move_other]
    rfl
  | tagged r tag typeArguments body =>
    rw [move_tagged]
    rfl

theorem of?_move_eq_none_iff {tag : Node} (typeArguments : Option Node) {body : Template Node} :
    Usage.of? names (tag.move f) (typeArguments.map (Node.move f)) (body.move f) = none ↔
      Usage.of? names tag typeArguments body = none := by
  cases tag with
  | identifier r name => simp [Node.move, Usage.of?]
  | template opening => simp [move_template, Usage.of?]
  | importing d => simp [move_importing, Usage.of?]
  | other kind r children => simp [move_other, Usage.of?]
  | tagged r opening types inner =>
    rw [move_tagged, of?_tagged_eq_none_iff, of?_tagged_eq_none_iff, isDelimiter_move,
      isEmptyDelimiter_move]

theorem inNode_move_eq_nil_iff (n : Node) :
    Usage.inNode names (n.move f) = [] ↔ Usage.inNode names n = [] := by
  induction n using Node.induction with
  | identifier r name => simp [Node.move, Usage.inNode]
  | template body ih =>
    simp only [move_template, Usage.inNode_template, Template.move, List.flatMap_eq_nil_iff,
      List.forall_mem_map]
    exact forall₂_congr ih
  | importing d ih =>
    simp only [move_importing, Usage.inNode_importing, List.flatMap_eq_nil_iff, List.forall_mem_map]
    exact forall₂_congr ih
  | other kind r children ih =>
    simp only [move_other, Usage.inNode_other, List.flatMap_eq_nil_iff, List.forall_mem_map]
    exact forall₂_congr ih
  | tagged r tag typeArguments body ihtag ihT ihholes =>
    rw [move_tagged, inNode_tagged_eq_nil_iff, inNode_tagged_eq_nil_iff, of?_move_eq_none_iff,
      ihtag]
    simp only [Template.move, List.forall_mem_map, Option.mem_map, forall_exists_index, and_imp,
      forall_apply_eq_imp_iff₂]
    rw [forall₂_congr ihT, forall₂_congr ihholes]

theorem isRemoved_move (n : Node) : isRemoved (n.move f) = isRemoved n := by
  cases n with
  | identifier r name => rfl
  | template body =>
    rw [move_template]
    rfl
  | importing d =>
    rw [move_importing]
    rfl
  | other kind r children =>
    rw [move_other]
    rfl
  | tagged r tag typeArguments body =>
    rw [move_tagged]
    rfl

theorem isRemoved_rewritten (n : Node) : isRemoved (rewritten f names false n) = isRemoved n := by
  cases n with
  | identifier r name => rfl
  | template body =>
    rw [rewritten_template]
    rfl
  | importing d =>
    rw [rewritten_importing]
    rfl
  | other kind r children =>
    rw [rewritten_other]
    rfl
  | tagged r tag typeArguments body =>
    rw [rewritten_tagged, if_neg (by simp)]
    split
    · next hc =>
      obtain ⟨r', opening, types, inner, rfl, -⟩ := of?_of_isComposed names typeArguments hc
      rw [rewritten_tagged]
      rfl
    · split <;> rfl

end

theorem imports_eq_nil_iff {m : Module} : imports m = [] ↔ ∀ n ∈ m.items, isRemoved n = false := by
  simp only [List.eq_nil_iff_forall_not_mem, mem_imports]
  constructor
  · intro h n hn
    cases n with
    | importing d =>
      cases hd : isMarkerImport d with
      | false => exact hd
      | true => exact absurd ⟨hn, hd⟩ (h d)
    | _ => rfl
  · rintro h d ⟨hn, hd⟩
    have hkept : isMarkerImport d = false := h _ hn
    rw [hd] at hkept
    contradiction

theorem nothing_to_rewrite_iff {m m' : Module} (hform : m'.form = rewrittenModule nowhere m) :
    imports m' = [] ∧ usages m' = [] ↔ exposesModule m = false := by
  have hitems : m'.items.map (Node.move nowhere) =
      (m.items.filter fun n => !isRemoved n).map (rewritten nowhere (names m) false) := by
    have h := congrArg Module.items hform
    simpa only [Module.form, rewrittenModule, moveAll_eq, rewrittenAll_eq] using h
  have himports : imports m' = [] := by
    rw [imports_eq_nil_iff]
    intro n hn
    have hmem : n.move nowhere ∈
        (m.items.filter fun n => !isRemoved n).map (rewritten nowhere (names m) false) :=
      hitems ▸ List.mem_map_of_mem hn
    obtain ⟨k, hk, heq⟩ := List.mem_map.mp hmem
    rw [← isRemoved_move, ← heq, isRemoved_rewritten]
    simpa using (List.mem_filter.mp hk).2
  have hnames : names m' = [tagName] := by simp [names, aliases, himports]
  have hsub : ∀ name ∈ [tagName], name ∈ names m := by simp [names]
  have husages : usages m' = [] ↔
      ∀ x ∈ m'.items.map (Node.move nowhere), Usage.inNode [tagName] x = [] := by
    simp only [usages, hnames, Usage.inNodes_eq, List.flatMap_eq_nil_iff, List.forall_mem_map,
      inNode_move_eq_nil_iff]
  rw [husages, hitems, exposesModule, exposesAny_eq_false_iff]
  simp only [himports, true_and, List.forall_mem_map, inNode_rewritten_eq_nil_iff hsub]

theorem rewrite_eq_none_iff_of_readsAs {d : Document} {m : Module} {resolution : Option Resolution}
    (h : ReadsAs d (rewrittenModule nowhere m)) :
    d.rewrite resolution = .ok none ↔ exposesModule m = false := by
  obtain ⟨m', hread, hform⟩ := h
  rw [Document.rewrite_eq_none_iff, ← nothing_to_rewrite_iff hform]
  constructor
  · rintro ⟨k, hk, hnothing⟩
    obtain rfl : k = m' := Except.ok.inj (hk.symm.trans hread)
    exact hnothing
  · exact fun hnothing => ⟨m', hread, hnothing⟩

/-- Rewriting the result of a rewrite gives nothing back exactly if the result is read as a script
that asks for nothing. Where it is read as the rewritten tree, as the result for a written script is
if it is a script again, that is exactly if no empty templates come together in this tree. Results
that are read as another tree are not covered: a marker alone on a line above a marked template
becomes the tag of what is left. -/
theorem rewrite_again_eq_none_iff {d : Document} {resolution again : Option Resolution}
    {r : Rewritten} (h : d.rewrite resolution = .ok (some r)) : ∃ m, d.parse = .ok m ∧
      ((Document.mk r.id r.code).rewrite again = .ok none ↔
        ∃ m', (Document.mk r.id r.code).parse = .ok m' ∧ imports m' = [] ∧ usages m' = []) ∧
      (ReadsAs ⟨r.id, r.code⟩ (rewrittenModule nowhere m) →
        ((Document.mk r.id r.code).rewrite again = .ok none ↔ exposesModule m = false)) ∧
      ∀ s : Written.Script, s.IsReadable → d.text = s.text → r.code = s.rewritten.text ∧
        (s.rewritten.IsReadable →
          ((Document.mk r.id r.code).rewrite again = .ok none ↔ exposesModule m = false)) := by
  obtain ⟨m, -, hparse, -⟩ := Document.rewrite_eq_some_iff.mp h
  refine ⟨m, hparse, Document.rewrite_eq_none_iff, rewrite_eq_none_iff_of_readsAs,
    fun s hs htext => ⟨code_of_script hs htext h, fun hr => rewrite_eq_none_iff_of_readsAs ?_⟩⟩
  exact module_of_script hs htext hparse ▸ readsAs_of_script hs htext hr h

def emptyMarker : Document := ⟨"src/index.ts", "dedent``` a ```".toList⟩

def writtenMarker : Written.Script :=
  let dedent : Written.Variable := ⟨⟨"dedent".toList, by decide⟩, by decide⟩
  ⟨[⟨[], .plain (.tagged (.tagged (.tagged (.named dedent) (.last [])) (.last " a ".toList))
    (.last [])), false⟩], []⟩

def bareWrapper : Rewritten := ⟨"src/index.ts", "``` a ```".toList, none, ⟨0, 1, 0, 1⟩⟩

theorem rewrite_again_bareWrapper : emptyMarker.rewrite none = .ok (some bareWrapper) ∧
    ∃ m, emptyMarker.parse = .ok m ∧
      ((Document.mk bareWrapper.id bareWrapper.code).rewrite none = .ok none ↔
        ∃ m', (Document.mk bareWrapper.id bareWrapper.code).parse = .ok m' ∧ imports m' = [] ∧
          usages m' = []) ∧
      ReadsAs ⟨bareWrapper.id, bareWrapper.code⟩ (rewrittenModule nowhere m) ∧
      ((Document.mk bareWrapper.id bareWrapper.code).rewrite none = .ok none ↔
        exposesModule m = false) ∧ exposesModule m = true := by
  have hrewrite : emptyMarker.rewrite none = .ok (some bareWrapper) := by decide +kernel
  have hreadable : writtenMarker.IsReadable ∧ writtenMarker.rewritten.IsReadable := by
    decide +kernel
  have htext : emptyMarker.text = writtenMarker.text := by decide +kernel
  have hexposes : exposesModule writtenMarker.module = true := by decide +kernel
  obtain ⟨m, hparse, hagain, hreads, -⟩ := rewrite_again_eq_none_iff hrewrite
  obtain rfl : m = writtenMarker.module := module_of_script hreadable.1 htext hparse
  have hread := readsAs_of_script hreadable.1 htext hreadable.2 hrewrite
  exact ⟨hrewrite, _, hparse, hagain, hread, hreads hread, hexposes⟩

theorem rewrite_bareWrapper : emptyMarker.rewrite none = .ok (some bareWrapper) ∧
    (Document.mk bareWrapper.id bareWrapper.code).rewrite none =
      .ok (some ⟨"src/index.ts", "`a`".toList, none, ⟨0, 0, 1, 1⟩⟩) := by
  constructor <;> decide +kernel

end Outdent.Marker
