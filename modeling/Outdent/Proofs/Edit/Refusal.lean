import Outdent.PositionMap
import Outdent.Proofs.Edit.Order
/-! # Refused edits

Edits are taken exactly if all are valid and stand apart. Valid edits are refused for nothing but an
overlap. -/
namespace Outdent

namespace Edit

variable {text : List Char} {es : List Edit}

theorem Accepted.sort (h : Accepted text es) : Accepted text (sort es) where
  valid e he := h.valid e (mem_sort.mp he)
  apart := (perm_sort es).symm.pairwise h.apart fun hab => hab.symm

theorem Accepted.follows_sort (h : Accepted text es) :
    Span.Follows 0 ((Edit.sort es).map range) := by
  have hsorted := h.sort
  apply Span.follows_of_pairwise
  · refine List.pairwise_map.mpr (((ascending_sort es).and hsorted.apart).imp_of_mem ?_)
    intro a b _ hb hab
    exact Span.stop_le_start (hsorted.forward hb) hab.1 hab.2
  · exact fun r _ => Nat.zero_le r.start

theorem exists_cut_iff : (∃ ps, cut text es = .ok ps) ↔ Accepted text es := by
  constructor
  · rintro ⟨ps, h⟩
    exact accepted_of_cut h
  · intro h
    exact ⟨_, cut_eq_ok_iff.mpr ⟨check_eq_ok_iff.mpr ⟨h.sort.valid, h.follows_sort⟩, rfl⟩⟩

theorem apply_eq_ok_iff {code : List Char} : apply text es = .ok code ↔
    ∃ ps, cut text es = .ok ps ∧ ps.flatMap Piece.output = code := by
  cases hcut : cut text es <;> simp [apply, hcut, bind, Except.bind, pure, Except.pure]

theorem exists_apply_iff : (∃ code, apply text es = .ok code) ↔ Accepted text es := by
  simp only [← exists_cut_iff, apply_eq_ok_iff]
  constructor
  · rintro ⟨-, ps, hcut, -⟩
    exact ⟨ps, hcut⟩
  · rintro ⟨ps, hcut⟩
    exact ⟨_, ps, hcut, rfl⟩

theorem exists_of_check_eq_invalid {previous : Option Span} {r : Span} {size : Nat}
    (h : check text previous es = .error (.invalid r size)) :
    ∃ e ∈ es, ¬ e.range.isValidIn text = true := by
  induction es generalizing previous with
  | nil => simp [check] at h
  | cons e es ih =>
    by_cases hv : e.range.isValidIn text = true
    · have hrest : check text (some e.range) es = .error (.invalid r size) := by
        cases previous with
        | none => simpa [check, hv] using h
        | some p =>
          by_cases hp : e.range.start < p.stop
          · simp [check, hv, hp] at h
          · simpa [check, hv, hp] using h
      obtain ⟨f, hf, hnot⟩ := ih hrest
      exact ⟨f, List.mem_cons_of_mem _ hf, hnot⟩
    · exact ⟨e, List.mem_cons_self, hv⟩

theorem cut_eq_error_iff {fault : EditError} :
    cut text es = .error fault ↔ check text none (sort es) = .error fault := by
  cases hc : check text none (sort es) <;> simp [cut, hc, bind, Except.bind, pure, Except.pure]

theorem cut_ne_invalid (hv : ∀ e ∈ es, e.range.isValidIn text = true) (r : Span) (size : Nat) :
    cut text es ≠ .error (.invalid r size) := by
  intro h
  obtain ⟨e, he, hnot⟩ := exists_of_check_eq_invalid (cut_eq_error_iff.mp h)
  exact hnot (hv e (mem_sort.mp he))

/-- Valid edits are refused for an overlap exactly if two of them do not stand apart. -/
theorem exists_overlapping_iff (hv : ∀ e ∈ es, e.range.isValidIn text = true) :
    (∃ a b, cut text es = .error (.overlapping a b)) ↔ ¬ Accepted text es := by
  constructor
  · rintro ⟨a, b, h⟩ haccepted
    obtain ⟨ps, hps⟩ := exists_cut_iff.mpr haccepted
    rw [hps] at h
    contradiction
  · intro h
    cases hc : cut text es with
    | ok ps => exact absurd (accepted_of_cut hc) h
    | error fault =>
      cases fault with
      | invalid r size => exact absurd hc (cut_ne_invalid hv r size)
      | overlapping a b => exact ⟨a, b, rfl⟩

end Edit

theorem Edited.ofEdits_eq_ok_iff {id : String} {text : List Char} {es : List Edit}
    {resolution : Option Resolution} {edited : Edited} :
    ofEdits id text es resolution = .ok edited ↔ ∃ ps, Edit.cut text es = .ok ps ∧
      ⟨ps.flatMap Edit.Piece.output,
        resolution.map fun r => ⟨id, text, Mapping.ofPieces r .origin .origin ps⟩⟩ = edited := by
  cases hc : Edit.cut text es <;> simp [ofEdits, hc, bind, Except.bind, pure, Except.pure]

theorem Edited.exists_ofEdits_iff {id : String} {text code : List Char} {es : List Edit}
    {resolution : Option Resolution} :
    (∃ map, ofEdits id text es resolution = .ok ⟨code, map⟩) ↔ Edit.apply text es = .ok code := by
  simp only [ofEdits_eq_ok_iff, Edit.apply_eq_ok_iff, Edited.mk.injEq]
  constructor
  · rintro ⟨-, ps, hcut, hcode, -⟩
    exact ⟨ps, hcut, hcode⟩
  · rintro ⟨ps, hcut, hcode⟩
    exact ⟨_, ps, hcut, hcode, rfl⟩

theorem Edited.ofEdits_eq_error_iff {id : String} {text : List Char} {es : List Edit}
    {resolution : Option Resolution} {fault : EditError} :
    ofEdits id text es resolution = .error fault ↔ Edit.cut text es = .error fault := by
  cases hc : Edit.cut text es <;> simp [ofEdits, hc, bind, Except.bind, pure, Except.pure]

end Outdent
