import Outdent.Proofs.Edit.Order
/-! # Sorting edits

Edits are arranged by insertion, from the last one on. That is the stable sort by range: it leaves
edits of one range in the order they came in. -/
namespace Outdent.Edit

theorem insertSorted_between {e : Edit} {front back : List Edit}
    (hfront : ∀ f ∈ front, ¬ e.range.le f.range = true)
    (hback : ∀ f ∈ back, e.range.le f.range = true) :
    insertSorted e (front ++ back) = front ++ e :: back := by
  induction front with
  | nil =>
    cases back with
    | nil => rfl
    | cons f fs => simp [insertSorted, hback f List.mem_cons_self]
  | cons f fs ih =>
    have hrest := ih fun g hg => hfront g (List.mem_cons_of_mem _ hg)
    simp [insertSorted, hfront f List.mem_cons_self, hrest]

/-- Insertion arranges edits as a stable sort by start and end does. -/
theorem sort_eq_mergeSort (es : List Edit) :
    sort es = es.mergeSort fun a b => a.range.le b.range := by
  have trans : ∀ a b c : Edit, a.range.le b.range = true → b.range.le c.range = true →
      a.range.le c.range = true := fun _ _ _ hab hbc => Span.le_trans hab hbc
  have total : ∀ a b : Edit, (a.range.le b.range || b.range.le a.range) = true := by
    intro a b
    by_cases h : a.range.le b.range = true
    · simp [h]
    · simp [Span.le_total h]
  induction es with
  | nil => simp [sort]
  | cons e es ih =>
    obtain ⟨front, back, hcons, hrest, hfront⟩ := List.mergeSort_cons trans total e es
    have hsorted := List.pairwise_mergeSort trans total (e :: es)
    rw [hcons] at hsorted
    have hback := (List.pairwise_cons.mp (List.pairwise_append.mp hsorted).2.1).1
    rw [hcons, ← insertSorted_between (fun f hf => by simpa using hfront f hf) hback, ← hrest, ← ih]
    rfl

theorem filter_insertSorted (e : Edit) (es : List Edit) (r : Span) :
    (insertSorted e es).filter (fun f => decide (f.range = r)) =
      (e :: es).filter fun f => decide (f.range = r) := by
  induction es with
  | nil => rfl
  | cons f fs ih =>
    rw [insertSorted]
    split
    · rfl
    · next hle =>
      have hne : ¬ (e.range = r ∧ f.range = r) := by
        rintro ⟨rfl, hf⟩
        exact hle (Span.le_iff.mpr (by rw [hf]; omega))
      by_cases he : e.range = r
      · have hf : f.range ≠ r := fun hf => hne ⟨he, hf⟩
        simp [ih, he, hf]
      · simp [List.filter_cons, ih, he]

theorem filter_sort (es : List Edit) (r : Span) :
    (sort es).filter (fun f => decide (f.range = r)) =
      es.filter fun f => decide (f.range = r) := by
  induction es with
  | nil => rfl
  | cons e es ih =>
    calc
      (sort (e :: es)).filter (fun f => decide (f.range = r)) =
          (e :: sort es).filter fun f => decide (f.range = r) := filter_insertSorted e (sort es) r
      _ = (e :: es).filter fun f => decide (f.range = r) := by
        rw [List.filter_cons, List.filter_cons, ih]

end Outdent.Edit
