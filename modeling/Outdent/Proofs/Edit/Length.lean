import Mathlib.Algebra.Order.BigOperators.Group.List
import Mathlib.Algebra.Order.Group.Nat
import Mathlib.Algebra.Ring.Nat
import Outdent.Proofs.Edit.Emission
/-! # The length of a result

Edits that are accepted take as many bytes from a document as their ranges have and put in as many
as their texts have. So a result is shorter than its document where no edit puts in more than it
takes and one of them puts in less. -/
namespace Outdent

def Span.length (r : Span) : Nat := r.stop - r.start

namespace Edit

def taken (es : List Edit) : Nat := (es.map fun e => e.range.length).sum

def given (es : List Edit) : Nat := (es.map fun e => Text.byteLength e.replacement).sum

variable {text : List Char} {es : List Edit}

theorem CutAt.length_eq {xs before old after : List Char} {e : Edit}
    (h : CutAt text xs e before old after) : e.range.length = Text.byteLength old := by
  have hstart := h.start
  have hstop := h.stop
  rw [Text.byteLength_append] at hstop
  rw [Span.length]
  omega

theorem byteLength_pieces (xs : List Char) {rest : List Char} (htext : text = xs ++ rest)
    (hv : ∀ e ∈ es, e.range.isValidIn text = true)
    (hf : Span.Follows (Text.byteLength xs) (es.map range)) :
    Text.byteLength ((pieces (Text.byteLength xs) rest es).flatMap Piece.output) + taken es =
      Text.byteLength rest + given es := by
  induction es generalizing xs rest with
  | nil => simp [pieces, Piece.output, taken, given]
  | cons e es ih =>
    obtain ⟨before, old, after, rfl, hcut⟩ :=
      exists_cutAt htext (hv e List.mem_cons_self) hf.1
    have hlater := ih (xs ++ before ++ old) hcut.text_eq
      (fun f hf => hv f (List.mem_cons_of_mem _ hf)) (hcut.stop ▸ hf.2)
    have hlength := hcut.length_eq
    rw [hcut.stop] at hlater
    rw [hcut.pieces_cons]
    simp only [taken, given, List.map_cons, List.sum_cons, List.flatMap_cons, Piece.output,
      Text.byteLength_append] at hlater ⊢
    omega

theorem byteLength_of_cut {ps : List Piece} (h : cut text es = .ok ps) :
    Text.byteLength (ps.flatMap Piece.output) + taken es = Text.byteLength text + given es := by
  obtain ⟨hcheck, rfl⟩ := cut_eq_ok_iff.mp h
  obtain ⟨hv, hf⟩ := check_eq_ok_iff.mp hcheck
  have hlength := byteLength_pieces [] rfl hv hf
  have htaken : taken (sort es) = taken es := ((perm_sort es).map _).sum_eq
  have hgiven : given (sort es) = given es := ((perm_sort es).map _).sum_eq
  rw [htaken, hgiven] at hlength
  exact hlength

/-- A result is shorter where every edit puts in at most what it takes, and one of them less. -/
theorem byteLength_lt_of_cut {ps : List Piece} (h : cut text es = .ok ps)
    (hle : ∀ e ∈ es, Text.byteLength e.replacement ≤ e.range.length)
    (hlt : ∃ e ∈ es, Text.byteLength e.replacement < e.range.length) :
    Text.byteLength (ps.flatMap Piece.output) < Text.byteLength text := by
  have hlength := byteLength_of_cut h
  have hsum : given es < taken es := List.sum_lt_sum _ _ hle hlt
  omega

end Edit

end Outdent
