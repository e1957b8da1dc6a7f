import Outdent.Proofs.Marker.Agreement
import Outdent.Proofs.Syntax.Nodes
/-! # The edits of a usage

The edits in a node are those of the usages that lie in it. Each is valid where the tree fits its
text, and every usage removes something in front of its own end. -/
namespace Outdent.Marker

open Outdent.Syntax Reference

variable {text : List Char} {names : List String}

def usage? (names : List String) : Node → Option Usage
  | .tagged _ tag typeArguments body => Usage.of? names tag typeArguments body
  | _ => none

def HoldsUsage (names : List String) (n : Node) : Prop :=
  ∃ k, n.Contains k ∧ (usage? names k).isSome = true

instance (n : Node) : Decidable (HoldsUsage names n) :=
  inferInstanceAs (Decidable (∃ _, _ ∧ _))

theorem inNode_eq_subnodes (n : Node) : Usage.inNode names n =
    (usage? names n).toList ++ n.subnodes.flatMap (Usage.inNode names) := by
  cases n with
  | identifier r name => rfl
  | template body => simp [Usage.inNode_template, usage?, Node.subnodes]
  | tagged r tag typeArguments body => simp [Usage.inNode_tagged, usage?, Node.subnodes]
  | importing d => simp [Usage.inNode_importing, usage?, Node.subnodes]
  | other kind r children => simp [Usage.inNode_other, usage?, Node.subnodes]

theorem editsIn_eq_subnodes (n : Node) : editsIn names n =
    (usage? names n).toList.flatMap Usage.edits ++ n.subnodes.flatMap (editsIn names) := by
  simp only [editsIn, inNode_eq_subnodes n, List.flatMap_append, List.flatMap_assoc]
  rfl

theorem mem_inNode_iff {n : Node} {u : Usage} : u ∈ Usage.inNode names n ↔
    ∃ k, n.Contains k ∧ usage? names k = some u := by
  constructor
  · intro hu
    induction n using Node.subnodes_induction with
    | node n ih =>
      rw [inNode_eq_subnodes] at hu
      rcases List.mem_append.mp hu with hu | hu
      · exact ⟨n, .self n, Option.mem_toList.mp hu⟩
      · obtain ⟨j, hj, hu⟩ := List.mem_flatMap.mp hu
        obtain ⟨k, hk, heq⟩ := ih j hj hu
        exact ⟨k, .step hj hk, heq⟩
  · rintro ⟨k, hk, hu⟩
    induction hk with
    | self n =>
      rw [inNode_eq_subnodes]
      exact List.mem_append_left _ (Option.mem_toList.mpr hu)
    | step hj _ ih =>
      rw [inNode_eq_subnodes]
      exact List.mem_append_right _ (List.mem_flatMap.mpr ⟨_, hj, ih hu⟩)

theorem mem_usages_iff {m : Module} {u : Usage} : u ∈ usages m ↔
    ∃ n ∈ m.items, ∃ k, n.Contains k ∧ usage? (Marker.names m) k = some u := by
  simp only [usages, Usage.inNodes_eq, List.mem_flatMap, mem_inNode_iff]

theorem mem_editsIn_iff {n : Node} {e : Edit} : e ∈ editsIn names n ↔
    ∃ k, n.Contains k ∧ ∃ u ∈ usage? names k, e ∈ u.edits := by
  rw [editsIn, List.mem_flatMap]
  constructor
  · rintro ⟨u, hu, he⟩
    obtain ⟨k, hk, heq⟩ := mem_inNode_iff.mp hu
    exact ⟨k, hk, u, heq, he⟩
  · rintro ⟨k, hk, u, hu, he⟩
    exact ⟨u, mem_inNode_iff.mpr ⟨k, hk, hu⟩, he⟩

theorem editsIn_eq_nil {n : Node} (h : ¬ HoldsUsage names n) : editsIn names n = [] := by
  refine List.eq_nil_iff_forall_not_mem.mpr fun e he => h ?_
  obtain ⟨k, hk, u, hu, -⟩ := mem_editsIn_iff.mp he
  exact ⟨k, hk, by rw [Option.mem_def.mp hu]; rfl⟩

theorem usage?_eq_some {n : Node} {u : Usage} (h : usage? names n = some u) :
    (∃ r tag types body, n = .tagged r tag types body ∧ isMarked names tag = true ∧
        u = .direct (tagSpan tag types) body) ∨
      ∃ r r' opening types types' inner body,
        n = .tagged r (.tagged r' (.template opening) types' inner) types body ∧
          u = .composed opening.range body.range inner := by
  cases n with
  | tagged r tag types body =>
    by_cases hc : isComposed tag body = true
    · obtain ⟨r', opening, types', inner, rfl, -, -, hof⟩ := of?_of_isComposed names types hc
      exact Or.inr ⟨r, r', opening, types, types', inner, body, rfl,
        Option.some.inj (h.symm.trans hof)⟩
    · by_cases hm : isMarked names tag = true
      · obtain ⟨-, hof⟩ := of?_of_isMarked types body hm
        exact Or.inl ⟨r, tag, types, body, rfl, hm, Option.some.inj (h.symm.trans hof)⟩
      · have hof := of?_eq_none types (Bool.not_eq_true _ ▸ hc) (Bool.not_eq_true _ ▸ hm)
        exact absurd (h.symm.trans hof) (by simp)
  | _ => simp [usage?] at h

theorem tagSpan_order {r : Span} {tag : Node} {types : Option Node} {body : Template Node}
    (h : (Node.tagged r tag types body).Fits text) :
    r.start ≤ tag.range.start ∧ tag.range.stop ≤ (tagSpan tag types).stop ∧
      (tagSpan tag types).stop ≤ body.range.start ∧ body.range.stop ≤ r.stop := by
  obtain ⟨-, hseq, -, hT, -, -⟩ := fits_tagged.mp h
  cases types with
  | none => exact ⟨hseq.1, Nat.le_refl _, hseq.2.1, hseq.2.2.1⟩
  | some t =>
    have ht := (Span.isValidIn_iff.mp (hT t rfl).valid).1
    exact ⟨hseq.1, Nat.le_trans hseq.2.1 ht, hseq.2.2.1, hseq.2.2.2.1⟩

theorem range_of_mem_own {s : Segment} {e : Edit} (he : e ∈ (segmentPart s).own) :
    e.range = s.range := by
  simp only [segmentPart, Usage.replacements, List.filterMap_cons, List.filterMap_nil] at he
  split at he
  · exact absurd he List.not_mem_nil
  · next heq =>
    split at heq
    · contradiction
    · rw [List.mem_singleton.mp he, ← Option.some.inj heq]
      rfl

theorem valid_replacements {body : Template Node} (hb : body.Fits text) :
    ∀ e ∈ Usage.replacements body, e.range.isValidIn text = true := by
  intro e he
  obtain ⟨s, hs, he⟩ := mem_replacements.mp he
  rw [range_of_mem_own he]
  exact (hb.segments s hs).1

theorem valid_usage {n : Node} {u : Usage} (h : n.Fits text) (hu : usage? names n = some u) :
    ∀ e ∈ u.edits, e.range.isValidIn text = true := by
  intro e he
  rcases usage?_eq_some hu with ⟨r, tag, types, body, rfl, hm, rfl⟩ |
    ⟨r, r', opening, types, types', inner, body, rfl, rfl⟩
  · obtain ⟨-, -, -, -, hb, -⟩ := fits_tagged.mp h
    rcases Usage.mem_edits_direct.mp he with rfl | he
    · exact (tagSpan_fits h).1
    · exact valid_replacements hb e he
  · obtain ⟨-, -, htag, -, hb, -⟩ := fits_tagged.mp h
    obtain ⟨-, -, hopening, -, hinner, -⟩ := fits_tagged.mp htag
    rcases Usage.mem_edits_composed.mp he with rfl | rfl | he
    · exact hopening.valid
    · exact hb.valid
    · exact valid_replacements hinner e he

/-- A usage removes at least one byte, and stops to do so before its end. -/
theorem exists_edit_within {n : Node} {u : Usage} (h : n.Fits text)
    (hsolid : ∀ k, n.Contains k → k.IsSolid) (hu : usage? names n = some u) :
    ∃ e ∈ u.edits, e.range.start < e.range.stop ∧ n.range.start ≤ e.range.start ∧
      e.range.stop < n.range.stop := by
  rcases usage?_eq_some hu with ⟨r, tag, types, body, rfl, hm, rfl⟩ |
    ⟨r, r', opening, types, types', inner, body, rfl, rfl⟩
  · obtain ⟨⟨r', name, rfl⟩, -⟩ := of?_of_isMarked types body hm
    have htag : r'.start < r'.stop :=
      hsolid (.identifier r' name) (.step List.mem_cons_self (.self _))
    have hbody : body.range.start < body.range.stop := hsolid _ (.self _)
    obtain ⟨hstart, hstop, hnext, hend⟩ := tagSpan_order h
    simp only [Node.range] at hstart hstop
    refine ⟨.delete (tagSpan (.identifier r' name) types),
      Usage.mem_edits_direct.mpr (Or.inl rfl), ?_, hstart, ?_⟩
    · exact Nat.lt_of_lt_of_le htag hstop
    · simp only [Edit.range, Node.range]
      omega
  · obtain ⟨-, -, htag, -, -, -⟩ := fits_tagged.mp h
    have hopening : opening.range.start < opening.range.stop :=
      hsolid (.template opening) (.step List.mem_cons_self (.step List.mem_cons_self (.self _)))
    have hbody : body.range.start < body.range.stop := hsolid _ (.self _)
    obtain ⟨hstart, hstop, hnext, hend⟩ := tagSpan_order h
    obtain ⟨hstart', hstop', hnext', hend'⟩ := tagSpan_order htag
    obtain ⟨-, -, -, -, hinner, -⟩ := fits_tagged.mp htag
    have hle := (Span.isValidIn_iff.mp hinner.valid).1
    simp only [Node.range] at hstart hstop hstart' hstop'
    refine ⟨.delete opening.range, Usage.mem_edits_composed.mpr (Or.inl rfl), hopening, ?_, ?_⟩
    · exact Nat.le_trans hstart hstart'
    · simp only [Edit.range, Node.range]
      omega

end Outdent.Marker
