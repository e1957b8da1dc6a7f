import Mathlib.Data.List.Pairwise
import Mathlib.Tactic.Common
import Outdent.Edit
/-! # Accepted edits

Sorting arranges edits and changes none of them. The check of sorted edits only compares
neighbours; what it lets through is valid and stands apart pair by pair. -/
namespace Outdent

namespace Span

def Apart (a b : Span) : Prop := a.stop ≤ b.start ∨ b.stop ≤ a.start

instance (a b : Span) : Decidable (Apart a b) := inferInstanceAs (Decidable (_ ∨ _))

theorem Apart.symm {a b : Span} (h : Apart a b) : Apart b a := Or.symm h

theorem le_iff {a b : Span} :
    a.le b = true ↔ a.start < b.start ∨ (a.start = b.start ∧ a.stop ≤ b.stop) := by
  simp [le]

theorem le_total {a b : Span} (h : ¬ a.le b = true) : b.le a = true := by
  rw [le_iff] at h ⊢
  omega

theorem le_trans {a b c : Span} (h : a.le b = true) (k : b.le c = true) : a.le c = true := by
  rw [le_iff] at h k ⊢
  omega

theorem stop_le_start {a b : Span} (hb : b.start ≤ b.stop) (hle : a.le b = true)
    (h : Apart a b) : a.stop ≤ b.start := by
  rw [le_iff] at hle
  unfold Apart at h
  omega

theorem isValidIn_iff {text : List Char} {r : Span} :
    r.isValidIn text = true ↔ r.start ≤ r.stop ∧ r.stop ≤ Text.byteLength text ∧
      Text.isBoundary r.start text = true ∧ Text.isBoundary r.stop text = true := by
  simp [isValidIn, and_assoc]

/-- Every span starts at or behind the end of the one in front of it, the first one at or behind
a position. -/
def Follows : (position : Nat) → List Span → Prop
  | _, [] => True
  | position, r :: rs => position ≤ r.start ∧ Follows r.stop rs

instance decidableFollows : (position : Nat) → (rs : List Span) → Decidable (Follows position rs)
  | _, [] => isTrue trivial
  | position, r :: rs =>
    have := decidableFollows r.stop rs
    inferInstanceAs (Decidable (position ≤ r.start ∧ Follows r.stop rs))

theorem Follows.position_le {position : Nat} {rs : List Span} (h : Follows position rs)
    (forward : ∀ r ∈ rs, r.start ≤ r.stop) : ∀ r ∈ rs, position ≤ r.start := by
  induction rs generalizing position with
  | nil => simp
  | cons s rs ih =>
    intro r hr
    rcases List.mem_cons.mp hr with rfl | hr
    · exact h.1
    · have hs := forward s List.mem_cons_self
      have hrs := ih h.2 (fun r hr => forward r (List.mem_cons_of_mem _ hr)) r hr
      exact Nat.le_trans h.1 (Nat.le_trans hs hrs)

theorem Follows.pairwise {position : Nat} {rs : List Span} (h : Follows position rs)
    (forward : ∀ r ∈ rs, r.start ≤ r.stop) : rs.Pairwise fun a b => a.stop ≤ b.start := by
  induction rs generalizing position with
  | nil => exact List.Pairwise.nil
  | cons s rs ih =>
    have hrs : ∀ r ∈ rs, r.start ≤ r.stop := fun r hr => forward r (List.mem_cons_of_mem _ hr)
    exact List.pairwise_cons.mpr ⟨h.2.position_le hrs, ih h.2 hrs⟩

theorem follows_of_pairwise {position : Nat} {rs : List Span}
    (h : rs.Pairwise fun a b => a.stop ≤ b.start) (start : ∀ r ∈ rs, position ≤ r.start) :
    Follows position rs := by
  induction rs generalizing position with
  | nil => trivial
  | cons s rs ih =>
    obtain ⟨hs, hrs⟩ := List.pairwise_cons.mp h
    exact ⟨start s List.mem_cons_self, ih hrs hs⟩

end Span

namespace Edit

theorem perm_insertSorted (e : Edit) (es : List Edit) : (insertSorted e es).Perm (e :: es) := by
  induction es with
  | nil => exact List.Perm.refl _
  | cons f fs ih =>
    simp only [insertSorted]
    split
    · exact List.Perm.refl _
    · exact (ih.cons f).trans (List.Perm.swap e f fs)

theorem perm_sort (es : List Edit) : (sort es).Perm es := by
  induction es with
  | nil => exact List.Perm.refl _
  | cons e es ih => exact (perm_insertSorted e (sort es)).trans (ih.cons e)

theorem mem_sort {e : Edit} {es : List Edit} : e ∈ sort es ↔ e ∈ es := (perm_sort es).mem_iff

def Ascending (es : List Edit) : Prop := es.Pairwise fun a b => a.range.le b.range = true

theorem ascending_insertSorted (e : Edit) {es : List Edit} (h : Ascending es) :
    Ascending (insertSorted e es) := by
  induction es with
  | nil => exact List.pairwise_singleton _ _
  | cons f fs ih =>
    obtain ⟨hf, hfs⟩ := List.pairwise_cons.mp h
    simp only [insertSorted]
    split
    · next hle =>
      refine List.pairwise_cons.mpr ⟨?_, h⟩
      intro g hg
      rcases List.mem_cons.mp hg with rfl | hg
      · exact hle
      · exact Span.le_trans hle (hf g hg)
    · next hle =>
      refine List.pairwise_cons.mpr ⟨?_, ih hfs⟩
      intro g hg
      rcases List.mem_cons.mp ((perm_insertSorted e fs).mem_iff.mp hg) with rfl | hg
      · exact Span.le_total hle
      · exact hf g hg

theorem ascending_sort (es : List Edit) : Ascending (sort es) := by
  induction es with
  | nil => exact List.Pairwise.nil
  | cons e es ih => exact ascending_insertSorted e ih

theorem check_eq_ok_iff {text : List Char} {previous : Option Span} {es : List Edit} :
    check text previous es = .ok () ↔ (∀ e ∈ es, e.range.isValidIn text = true) ∧
      Span.Follows ((previous.map Span.stop).getD 0) (es.map range) := by
  induction es generalizing previous with
  | nil => simp [check, Span.Follows]
  | cons e es ih =>
    by_cases hv : e.range.isValidIn text = true
    · cases previous with
      | none => simp [check, hv, ih, Span.Follows]
      | some p =>
        by_cases hp : e.range.start < p.stop
        · simp [check, hv, hp, Span.Follows, Nat.not_le.mpr hp]
        · simp [check, hv, hp, ih, Span.Follows, Nat.not_lt.mp hp]
    · simp [check, hv]

/-- Edits that a text takes: valid spans that stand apart pair by pair. -/
structure Accepted (text : List Char) (es : List Edit) : Prop where
  valid : ∀ e ∈ es, e.range.isValidIn text = true
  apart : es.Pairwise fun a b => a.range.Apart b.range

theorem Accepted.forward {text : List Char} {es : List Edit} (h : Accepted text es) {e : Edit}
    (he : e ∈ es) : e.range.start ≤ e.range.stop := (Span.isValidIn_iff.mp (h.valid e he)).1

theorem Accepted.apart_of_ne {text : List Char} {es : List Edit} (h : Accepted text es)
    {e f : Edit} (he : e ∈ es) (hf : f ∈ es) (hne : e ≠ f) : e.range.Apart f.range :=
  have : Std.Symm fun a b : Edit => a.range.Apart b.range := ⟨fun _ _ hab => hab.symm⟩
  h.apart.forall he hf hne

theorem cut_eq_ok_iff {text : List Char} {es : List Edit} {ps : List Piece} :
    cut text es = .ok ps ↔ check text none (sort es) = .ok () ∧ pieces 0 text (sort es) = ps := by
  cases hc : check text none (sort es) <;> simp [cut, hc, bind, Except.bind, pure, Except.pure]

theorem forward_of_valid {text : List Char} {es : List Edit}
    (hv : ∀ e ∈ es, e.range.isValidIn text = true) : ∀ r ∈ es.map range, r.start ≤ r.stop := by
  intro r hr
  obtain ⟨e, he, rfl⟩ := List.mem_map.mp hr
  exact (Span.isValidIn_iff.mp (hv e he)).1

theorem start_le_of_follows {text : List Char} {position : Nat} {es : List Edit}
    (hv : ∀ e ∈ es, e.range.isValidIn text = true) (hf : Span.Follows position (es.map range)) :
    ∀ e ∈ es, position ≤ e.range.start :=
  fun e he => hf.position_le (forward_of_valid hv) e.range (List.mem_map_of_mem he)

theorem accepted_of_follows {text : List Char} {position : Nat} {es : List Edit}
    (hv : ∀ e ∈ es, e.range.isValidIn text = true) (hf : Span.Follows position (es.map range)) :
    Accepted text es :=
  ⟨hv, (List.pairwise_map.mp (hf.pairwise (forward_of_valid hv))).imp Or.inl⟩

theorem accepted_of_cut {text : List Char} {es : List Edit} {ps : List Piece}
    (h : cut text es = .ok ps) : Accepted text es := by
  obtain ⟨hc, -⟩ := cut_eq_ok_iff.mp h
  obtain ⟨hv, hf⟩ := check_eq_ok_iff.mp hc
  have sorted := accepted_of_follows hv hf
  constructor
  · exact fun e he => hv e (mem_sort.mpr he)
  · exact (perm_sort es).pairwise sorted.apart fun hab => hab.symm

end Edit

end Outdent
