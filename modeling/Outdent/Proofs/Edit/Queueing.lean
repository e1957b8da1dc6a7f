import Outdent.Proofs.Edit.Refusal
import Outdent.Proofs.Edit.Sorting
/-! # The order in which edits are queued

Edits are sorted before they are looked at, and the check of sorted edits looks at their ranges. So
edits are taken or refused, and refused for one fault, whatever order they are queued in. What is
made of edits that are taken depends on it only through edits of one range, which sorting leaves in
the order they came in. -/
namespace Outdent

theorem Span.le_antisymm {a b : Span} (h : a.le b = true) (k : b.le a = true) : a = b := by
  obtain ⟨start, stop⟩ := a
  obtain ⟨start', stop'⟩ := b
  simp only [Span.le_iff, Span.mk.injEq] at h k ⊢
  omega

namespace Edit

variable {text : List Char} {es fs : List Edit} {e : Edit}

/-- The edits of any one range come in the same order in two lists. -/
def SameTurns (es fs : List Edit) : Prop :=
  ∀ r, es.filter (fun e => decide (e.range = r)) = fs.filter fun e => decide (e.range = r)

namespace SameTurns

theorem mem_iff (h : SameTurns es fs) : e ∈ es ↔ e ∈ fs := by
  have hfilter := congrArg (e ∈ ·) (h e.range)
  simpa using hfilter

theorem of_cons (h : SameTurns (e :: es) (e :: fs)) : SameTurns es fs := by
  intro r
  have hr := h r
  by_cases he : e.range = r
  · simpa [he] using hr
  · simpa [he] using hr

theorem iff_forall_mem : SameTurns es fs ↔
    ∀ e ∈ es ++ fs, es.filter (fun f => decide (f.range = e.range)) =
      fs.filter fun f => decide (f.range = e.range) := by
  constructor
  · intro h e _
    exact h e.range
  · intro h r
    by_cases hr : ∃ e ∈ es ++ fs, e.range = r
    · obtain ⟨e, he, rfl⟩ := hr
      exact h e he
    · have hnone : ∀ e ∈ es ++ fs, ¬ decide (e.range = r) = true := by
        simpa using hr
      rw [List.forall_mem_append] at hnone
      rw [List.filter_eq_nil_iff.mpr hnone.1, List.filter_eq_nil_iff.mpr hnone.2]

instance (es fs : List Edit) : Decidable (SameTurns es fs) := decidable_of_iff' _ iff_forall_mem

theorem symm (h : SameTurns es fs) : SameTurns fs es := fun r => (h r).symm

theorem head_le {f : Edit} (h : SameTurns (e :: es) (f :: fs)) (hes : Ascending (e :: es)) :
    e.range.le f.range = true := by
  rcases List.mem_cons.mp (h.mem_iff.mpr List.mem_cons_self) with rfl | hf
  · exact Span.le_iff.mpr (Or.inr ⟨rfl, Nat.le_refl _⟩)
  · exact (List.pairwise_cons.mp hes).1 f hf

/-- In ascending order of ranges nothing but the turns of edits of one range is left open. -/
theorem eq_of_ascending (h : SameTurns es fs) (hes : Ascending es) (hfs : Ascending fs) :
    es = fs := by
  induction es generalizing fs with
  | nil =>
    cases fs with
    | nil => rfl
    | cons f fs => exact absurd (h.mem_iff.mpr List.mem_cons_self) List.not_mem_nil
  | cons e es ih =>
    cases fs with
    | nil => exact absurd (h.mem_iff.mp List.mem_cons_self) List.not_mem_nil
    | cons f fs =>
      -- both lists start with an edit of the least range, and its first turn is the same in both
      have hrange : e.range = f.range := Span.le_antisymm (h.head_le hes) (h.symm.head_le hfs)
      have hturns := h e.range
      rw [List.filter_cons_of_pos (by simp), List.filter_cons_of_pos (by simp [hrange])] at hturns
      obtain ⟨rfl, -⟩ := List.cons_eq_cons.mp hturns
      rw [ih h.of_cons (List.pairwise_cons.mp hes).2 (List.pairwise_cons.mp hfs).2]

theorem sort_eq (h : SameTurns es fs) : sort es = sort fs := by
  refine eq_of_ascending ?_ (ascending_sort es) (ascending_sort fs)
  intro r
  rw [filter_sort, filter_sort, h r]

end SameTurns

theorem map_range_sort_of_perm (h : es.Perm fs) : (sort es).map range = (sort fs).map range := by
  have hperm : (sort es).Perm (sort fs) := (perm_sort es).trans (h.trans (perm_sort fs).symm)
  apply (hperm.map range).eq_of_pairwise
  · intro a b _ _ hab hba
    exact Span.le_antisymm hab hba
  · exact List.pairwise_map.mpr (ascending_sort es)
  · exact List.pairwise_map.mpr (ascending_sort fs)

theorem check_congr {previous : Option Span} (h : es.map range = fs.map range) :
    check text previous es = check text previous fs := by
  induction es generalizing previous fs with
  | nil =>
    have hnil : fs = [] := List.map_eq_nil_iff.mp h.symm
    rw [hnil]
  | cons e es ih =>
    obtain ⟨f, fs, rfl, hrange, hrest⟩ := List.map_eq_cons_iff.mp h.symm
    have hnext : check text (some e.range) es = check text (some e.range) fs := ih hrest.symm
    simp only [check, hrange, hnext]

theorem check_sort_of_perm (h : es.Perm fs) (text : List Char) :
    check text none (sort es) = check text none (sort fs) :=
  check_congr (map_range_sort_of_perm h)

/-- Edits queued in another order are refused for the same fault or taken as well. Where those of
one range keep their order, the result and its position map are the same. -/
theorem ofEdits_of_perm (h : es.Perm fs) (id : String) (text : List Char)
    (resolution : Option Resolution) :
    (∃ fault, Edited.ofEdits id text es resolution = .error fault ∧
      Edited.ofEdits id text fs resolution = .error fault) ∨
    ∃ edited edited', Edited.ofEdits id text es resolution = .ok edited ∧
      Edited.ofEdits id text fs resolution = .ok edited' ∧
      (SameTurns es fs → edited = edited') := by
  have hcheck := check_sort_of_perm h text
  cases hfault : check text none (sort es) with
  | error fault =>
    left
    refine ⟨fault, ?_, ?_⟩
    · rw [Edited.ofEdits_eq_error_iff, cut_eq_error_iff, hfault]
    · rw [Edited.ofEdits_eq_error_iff, cut_eq_error_iff, ← hcheck, hfault]
  | ok taken =>
    right
    have hcut := cut_eq_ok_iff.mpr ⟨hfault, rfl⟩
    have hcut' := cut_eq_ok_iff.mpr ⟨hcheck.symm.trans hfault, rfl⟩
    refine ⟨_, _, Edited.ofEdits_eq_ok_iff.mpr ⟨_, hcut, rfl⟩,
      Edited.ofEdits_eq_ok_iff.mpr ⟨_, hcut', rfl⟩, ?_⟩
    intro hturns
    rw [hturns.sort_eq]

def queuedEdits : List Edit :=
  [.replace ⟨3, 4⟩ "u\n".toList, .replace ⟨1, 1⟩ "x".toList, .delete ⟨0, 1⟩,
    .replace ⟨1, 1⟩ "yz".toList]

def requeuedEdits : List Edit :=
  [.delete ⟨0, 1⟩, .replace ⟨1, 1⟩ "x".toList, .replace ⟨1, 1⟩ "yz".toList,
    .replace ⟨3, 4⟩ "u\n".toList]

theorem ofEdits_of_perm_requeued :
    queuedEdits.Perm requeuedEdits ∧ SameTurns queuedEdits requeuedEdits ∧
      ∃ edited, Edited.ofEdits "a.ts" "aébc".toList queuedEdits (some .char) = .ok edited ∧
        Edited.ofEdits "a.ts" "aébc".toList requeuedEdits (some .char) = .ok edited := by
  have hperm : queuedEdits.Perm requeuedEdits := by decide +kernel
  have hturns : SameTurns queuedEdits requeuedEdits := by decide +kernel
  refine ⟨hperm, hturns, ?_⟩
  rcases ofEdits_of_perm hperm "a.ts" "aébc".toList (some .char) with
    ⟨fault, hfault, -⟩ | ⟨edited, edited', hedited, hedited', hsame⟩
  · have hcheck := Edited.ofEdits_eq_error_iff.mp hfault
    rw [cut_eq_error_iff] at hcheck
    have htaken : check "aébc".toList none (sort queuedEdits) = .ok () := by decide +kernel
    rw [htaken] at hcheck
    contradiction
  · exact ⟨edited, hedited, hsame hturns ▸ hedited'⟩

end Edit

end Outdent
