import Outdent.Proofs.Marker.UsageEdits
import Outdent.Proofs.Rewrite
/-! # What is counted

The walk comes to every node of a tree once, and the usages it finds are the nodes of the two
shapes. No node has both, and the tag of a composed usage has none of them. So the counts are
numbers of nodes, and the number of edits follows from them. -/
namespace Outdent

namespace Syntax

def Template.IsEmpty (body : Template Node) : Prop :=
  body.holes.isEmpty = true ∧ body.segments.map (·.raw) = [[]]

instance (body : Template Node) : Decidable body.IsEmpty := inferInstanceAs (Decidable (_ ∧ _))

def Segment.IsFilled (s : Segment) : Prop := s.raw = [] ↔ s.range.stop ≤ s.range.start

instance (s : Segment) : Decidable s.IsFilled := inferInstanceAs (Decidable (_ ↔ _))

/-- The segments of the template that a node is or that stands behind its tag. -/
def Node.segments : Node → List Segment
  | .template body => body.segments
  | .tagged _ _ _ body => body.segments
  | _ => []

def Module.IsFilled (m : Module) : Prop :=
  ∀ n ∈ m.items, ∀ k, n.Contains k → ∀ s ∈ k.segments, s.IsFilled

instance (m : Module) : Decidable m.IsFilled := inferInstanceAs (Decidable (∀ _ ∈ _, _))

end Syntax

namespace Marker

open Syntax Reference

variable {names : List String} {m : Module}

def directBody? (names : List String) : Node → Option (Template Node)
  | .tagged _ (.identifier _ name) _ body => if name ∈ names then some body else none
  | _ => none

def composedBody? : Node → Option (Template Node)
  | .tagged _ (.tagged _ (.template opening) _ inner) _ closing =>
    if opening.IsEmpty ∧ closing.IsEmpty then some inner else none
  | _ => none

def matchedBody? (names : List String) (n : Node) : Option (Template Node) :=
  (composedBody? n).or (directBody? names n)

def matchedSegments (m : Module) : List Segment :=
  (m.nodes.filterMap (matchedBody? (Marker.names m))).flatMap (·.segments)

theorem isEmptyDelimiter_iff {body : Template Node} :
    Usage.isEmptyDelimiter body = true ↔ body.IsEmpty := by
  obtain ⟨r, segments, holes⟩ := body
  cases holes with
  | nil =>
    rcases segments with _ | ⟨s, _ | ⟨s', ss⟩⟩
    · simp [Usage.isEmptyDelimiter, Template.IsEmpty]
    · simp [Usage.isEmptyDelimiter, Template.IsEmpty]
    · simp [Usage.isEmptyDelimiter, Template.IsEmpty]
  | cons h hs => simp [Usage.isEmptyDelimiter, Template.IsEmpty]

theorem usage?_shape (names : List String) (n : Node) :
    (∃ tag body, usage? names n = some (.direct tag body) ∧ directBody? names n = some body ∧
        composedBody? n = none) ∨
      (∃ opening closing body, usage? names n = some (.composed opening closing body) ∧
        directBody? names n = none ∧ composedBody? n = some body) ∨
      (usage? names n = none ∧ directBody? names n = none ∧ composedBody? n = none) := by
  cases n with
  | tagged r tag types body =>
    cases tag with
    | identifier r' name =>
      by_cases hname : name ∈ names
      · left
        refine ⟨tagSpan (.identifier r' name) types, body, ?_, if_pos hname, rfl⟩
        simp only [usage?, Usage.of?, List.contains_iff_mem.mpr hname, if_true]
        rfl
      · right; right
        refine ⟨?_, if_neg hname, rfl⟩
        simp [usage?, Usage.of?, hname]
    | tagged r' opening types' inner =>
      cases opening with
      | template opening =>
        by_cases hempty : opening.IsEmpty ∧ body.IsEmpty
        · right; left
          refine ⟨opening.range, body.range, inner, ?_, rfl, if_pos hempty⟩
          simp [usage?, Usage.of?, isEmptyDelimiter_iff, hempty]
        · right; right
          refine ⟨?_, rfl, if_neg hempty⟩
          simpa [usage?, Usage.of?, isEmptyDelimiter_iff] using hempty
      | _ => exact Or.inr (Or.inr ⟨rfl, rfl, rfl⟩)
    | _ => exact Or.inr (Or.inr ⟨rfl, rfl, rfl⟩)
  | _ => exact Or.inr (Or.inr ⟨rfl, rfl, rfl⟩)

/-- The usages in a node are those that the nodes within it are, each of them once. -/
theorem inNode_eq_filterMap (n : Node) :
    Usage.inNode names n = n.nodes.filterMap (usage? names) := by
  induction n using Node.subnodes_induction with
  | node n ih =>
    have hbelow : n.subnodes.flatMap (Usage.inNode names) =
        n.subnodes.flatMap fun k => k.nodes.filterMap (usage? names) := List.flatMap_congr ih
    rw [inNode_eq_subnodes, nodes_eq, List.filterMap_cons, List.filterMap_flatMap, hbelow]
    cases usage? names n with
    | none => rfl
    | some u => rfl

theorem usages_eq_filterMap (m : Module) :
    usages m = m.nodes.filterMap (usage? (Marker.names m)) := by
  rw [usages, Usage.inNodes_eq, Module.nodes, List.filterMap_flatMap]
  exact List.flatMap_congr fun n _ => inNode_eq_filterMap n

theorem map_body_usages (m : Module) :
    (usages m).map Usage.body = m.nodes.filterMap (matchedBody? (Marker.names m)) := by
  rw [usages_eq_filterMap, List.map_filterMap]
  refine List.filterMap_congr fun n _ => ?_
  rcases usage?_shape (Marker.names m) n with ⟨tag, body, hu, hd, hc⟩ |
    ⟨opening, closing, body, hu, hd, hc⟩ | ⟨hu, hd, hc⟩
  · rw [hu, matchedBody?, hd, hc]
    rfl
  · rw [hu, matchedBody?, hd, hc]
    rfl
  · rw [hu, matchedBody?, hd, hc]
    rfl

theorem countP_direct (m : Module) : (usages m).countP Usage.isDirect =
    m.nodes.countP fun n => (directBody? (Marker.names m) n).isSome := by
  rw [usages_eq_filterMap, List.countP_filterMap]
  refine List.countP_congr fun n _ => ?_
  rcases usage?_shape (Marker.names m) n with ⟨tag, body, hu, hd, -⟩ |
    ⟨opening, closing, body, hu, hd, -⟩ | ⟨hu, hd, -⟩
  · simp [hu, hd, Usage.isDirect]
  · simp [hu, hd, Usage.isDirect]
  · simp [hu, hd]

theorem countP_composed (m : Module) : (usages m).countP (! ·.isDirect) =
    m.nodes.countP fun n => (composedBody? n).isSome := by
  rw [usages_eq_filterMap, List.countP_filterMap]
  refine List.countP_congr fun n _ => ?_
  rcases usage?_shape (Marker.names m) n with ⟨tag, body, hu, -, hc⟩ |
    ⟨opening, closing, body, hu, -, hc⟩ | ⟨hu, -, hc⟩
  · simp [hu, hc, Usage.isDirect]
  · simp [hu, hc, Usage.isDirect]
  · simp [hu, hc]

theorem flatMap_segments_usages (m : Module) :
    (usages m).flatMap (·.body.segments) = matchedSegments m := by
  rw [matchedSegments, ← map_body_usages, List.flatMap_map]

theorem length_imports (m : Module) : (imports m).length = m.items.countP isRemoved := by
  rw [imports, ← List.countP_eq_length_filter, List.countP_filterMap]
  refine List.countP_congr fun n _ => ?_
  cases h : importOf? n with
  | none => simp [isRemoved, h]
  | some d => simp [isRemoved, h]

theorem length_replacements {body : Template Node} (h : ∀ s ∈ body.segments, s.IsFilled) :
    (Usage.replacements body).length = body.segments.countP (! ·.raw.isEmpty) := by
  rw [Usage.replacements, List.length_filterMap_eq_countP]
  refine List.countP_congr fun s hs => ?_
  have hfilled : s.raw = [] ↔ s.range.stop ≤ s.range.start := h s hs
  by_cases hraw : s.raw = []
  · have hnormal : Segment.normalize [] = [] := rfl
    simp [hraw, hfilled.mp hraw, hnormal]
  · have hrange : ¬ s.range.stop ≤ s.range.start := mt hfilled.mpr hraw
    simp [hraw, hrange]

theorem length_edits_usages {us : List Usage}
    (h : ∀ u ∈ us, ∀ s ∈ u.body.segments, s.IsFilled) :
    (us.flatMap Usage.edits).length = us.countP Usage.isDirect + 2 * us.countP (! ·.isDirect) +
      (us.flatMap (·.body.segments)).countP (! ·.raw.isEmpty) := by
  induction us with
  | nil => rfl
  | cons u us ih =>
    obtain ⟨hu, hus⟩ := List.forall_mem_cons.mp h
    have hself : u.edits.length = u.removals.length + u.body.segments.countP (! ·.raw.isEmpty) := by
      rw [Usage.edits, List.length_append, List.length_map, length_replacements hu]
    have hrest := ih hus
    rw [List.flatMap_cons, List.flatMap_cons, List.length_append, List.countP_append, hself, hrest]
    cases u with
    | direct tag body =>
      have hone : (Usage.direct tag body).removals.length = 1 := rfl
      rw [List.countP_cons_of_pos (by rfl), List.countP_cons_of_neg (by simp [Usage.isDirect]),
        hone]
      omega
    | composed opening closing body =>
      have htwo : (Usage.composed opening closing body).removals.length = 2 := rfl
      rw [List.countP_cons_of_neg (by simp [Usage.isDirect]), List.countP_cons_of_pos (by rfl),
        htwo]
      omega

theorem isFilled_of_mem_usages (h : m.IsFilled) {u : Usage} (hu : u ∈ usages m) :
    ∀ s ∈ u.body.segments, s.IsFilled := by
  obtain ⟨n, hn, k, hk, hof⟩ := mem_usages_iff.mp hu
  rcases usage?_eq_some hof with ⟨r, tag, types, body, rfl, -, rfl⟩ |
    ⟨r, r', opening, types, types', inner, body, rfl, rfl⟩
  · exact h n hn _ hk
  · exact h n hn _ (hk.trans (.step List.mem_cons_self (.self _)))

theorem edits_eq_nil_iff : edits m = [] ↔ imports m = [] ∧ usages m = [] := by
  have hremovals : ∀ u : Usage, u.edits ≠ [] := by
    intro u
    cases u with
    | direct tag body => exact List.cons_ne_nil _ _
    | composed opening closing body => exact List.cons_ne_nil _ _
  rw [edits, removedImports, List.append_eq_nil_iff, List.map_eq_nil_iff, List.map_eq_nil_iff,
    List.flatMap_eq_nil_iff]
  refine and_congr_right fun _ => ?_
  constructor
  · intro h
    exact List.eq_nil_iff_forall_not_mem.mpr fun u hu => hremovals u (h u hu)
  · intro h u hu
    rw [h] at hu
    contradiction

structure Counts (m : Module) : Prop where
  /-- The walk comes to the usages in the order of the nodes, and to each of them once. -/
  visited : (usages m).map Usage.body = m.nodes.filterMap (matchedBody? (Marker.names m))
  imports : (Stats.ofModule m).importsRemoved = m.items.countP isRemoved
  direct : (Stats.ofModule m).directMatches =
    m.nodes.countP fun n => (directBody? (Marker.names m) n).isSome
  composed : (Stats.ofModule m).composedMatches =
    m.nodes.countP fun n => (composedBody? n).isSome
  exclusive : ∀ n, directBody? (Marker.names m) n = none ∨ composedBody? n = none
  inner : ∀ r tag types body, (composedBody? (.tagged r tag types body)).isSome = true →
    matchedBody? (Marker.names m) tag = none
  segments : (Stats.ofModule m).segments = (matchedSegments m).length
  edits : (edits m).length = (Stats.ofModule m).importsRemoved +
    (Stats.ofModule m).directMatches + 2 * (Stats.ofModule m).composedMatches +
      (matchedSegments m).countP (! ·.raw.isEmpty)
  hasMatches : (Stats.ofModule m).hasMatches = false ↔ Marker.edits m = []
  rewrite : ∀ (d : Document) (resolution : Option Resolution), d.parse = .ok m →
    (d.rewrite resolution = .ok none ↔ Marker.edits m = [])

/-- The counts of a walk are the numbers of nodes of the two shapes and of their segments, at
whatever depth the nodes stand, and the number of edits follows from them. -/
theorem counts_of_isFilled (h : m.IsFilled) : Counts m := by
  have hdirect : (Stats.ofModule m).directMatches = (usages m).countP Usage.isDirect :=
    List.countP_eq_length_filter.symm
  have hcomposed : (Stats.ofModule m).composedMatches = (usages m).countP (! ·.isDirect) :=
    List.countP_eq_length_filter.symm
  have himports : (Stats.ofModule m).importsRemoved = (imports m).length := List.length_map _
  constructor
  · exact map_body_usages m
  · rw [himports, length_imports]
  · rw [hdirect, countP_direct]
  · rw [hcomposed, countP_composed]
  · intro n
    rcases usage?_shape (Marker.names m) n with ⟨_, _, -, -, hc⟩ | ⟨_, _, _, -, hd, -⟩ |
      ⟨-, hd, -⟩
    · exact Or.inr hc
    · exact Or.inl hd
    · exact Or.inl hd
  · intro r tag types body hsome
    cases tag with
    | tagged r' opening types' inner =>
      cases opening with
      | template opening => rfl
      | _ => contradiction
    | _ => contradiction
  · exact congrArg List.length (flatMap_segments_usages m)
  · have husages := length_edits_usages fun u hu => isFilled_of_mem_usages h hu
    rw [hdirect, hcomposed, himports, Marker.edits, List.length_append, List.length_map, husages,
      flatMap_segments_usages, removedImports, List.length_map]
    omega
  · rw [hasMatches_eq_false_iff, edits_eq_nil_iff]
  · intro d resolution hparse
    rw [Document.rewrite_eq_none_iff, edits_eq_nil_iff]
    constructor
    · rintro ⟨m', hm', hnothing⟩
      obtain rfl : m' = m := Except.ok.inj (hm'.symm.trans hparse)
      exact hnothing
    · intro hnothing
      exact ⟨m, hparse, hnothing⟩

def nestedUsages : Document :=
  ⟨"src/a.ts",
    "import d from 'rollup-plugin-dedent';d` a$\x7b``` b$\x7bdedent``\x7d ```\x7d`".toList⟩

theorem counts_nestedUsages : ∃ m, nestedUsages.parse = .ok m ∧ m.IsFilled ∧
    Stats.ofModule m = ⟨1, 2, 1, 5⟩ ∧ (edits m).length = 8 ∧ Counts m := by
  have hread : (match nestedUsages.parse with
      | .ok m => decide (m.IsFilled ∧ Stats.ofModule m = ⟨1, 2, 1, 5⟩ ∧ (edits m).length = 8)
      | .error _ => false) = true := by decide +kernel
  cases hparse : nestedUsages.parse with
  | error fault => simp [hparse] at hread
  | ok m =>
    obtain ⟨hfilled, hstats, hedits⟩ :
        m.IsFilled ∧ Stats.ofModule m = ⟨1, 2, 1, 5⟩ ∧ (edits m).length = 8 := by
      simpa [hparse] using hread
    exact ⟨m, rfl, hfilled, hstats, hedits, counts_of_isFilled hfilled⟩

end Marker

end Outdent
