import Outdent.Proofs.Edit.Refusal
import Outdent.Proofs.Text.Slice
/-! # Edits behind other text

Text that is put in front of a document moves its boundaries by as many bytes as it has. Edits that
are moved as far do to the document what they did to it alone, and leave the text in front of it as
it is. -/
namespace Outdent

def Span.moved (n : Nat) (r : Span) : Span := ⟨r.start + n, r.stop + n⟩

@[simp] theorem Span.start_moved (n : Nat) (r : Span) : (r.moved n).start = r.start + n := rfl

@[simp] theorem Span.stop_moved (n : Nat) (r : Span) : (r.moved n).stop = r.stop + n := rfl

namespace Text

variable {front text : List Char}

theorem isBoundary_behind {o : Nat} :
    isBoundary (o + byteLength front) (front ++ text) = true ↔ isBoundary o text = true := by
  constructor
  · intro h
    obtain ⟨us, zs, hcut, hlen⟩ := isBoundary_iff.mp h
    obtain ⟨ys, rfl, htext⟩ := exists_between hcut (by omega)
    rw [byteLength_append] at hlen
    exact isBoundary_iff.mpr ⟨ys, zs, htext, by omega⟩
  · intro h
    obtain ⟨xs, ys, rfl, rfl⟩ := isBoundary_iff.mp h
    refine isBoundary_iff.mpr ⟨front ++ xs, ys, (List.append_assoc front xs ys).symm, ?_⟩
    rw [byteLength_append, Nat.add_comm]

theorem splitAtByte_behind (front text : List Char) (n : Nat) :
    splitAtByte (n + byteLength front) (front ++ text) =
      (front ++ (splitAtByte n text).1, (splitAtByte n text).2) := by
  induction front with
  | nil => rfl
  | cons c front ih =>
    obtain ⟨k, hk⟩ := utf8Size_eq_succ c (n + byteLength front)
    have hrest : k + 1 - c.utf8Size = n + byteLength front := by omega
    rw [byteLength, Nat.add_left_comm, hk, List.cons_append, splitAtByte, hrest, ih]
    rfl

end Text

theorem Span.isValidIn_moved {front text : List Char} {r : Span} :
    (r.moved (Text.byteLength front)).isValidIn (front ++ text) = true ↔
      r.isValidIn text = true := by
  rw [isValidIn_iff, isValidIn_iff, start_moved, stop_moved, Text.isBoundary_behind,
    Text.isBoundary_behind, Text.byteLength_append]
  exact and_congr (by omega) (and_congr (by omega) Iff.rfl)

theorem Span.le_moved (n : Nat) (a b : Span) : (a.moved n).le (b.moved n) = a.le b := by
  rw [Bool.eq_iff_iff, le_iff, le_iff]
  simp only [start_moved, stop_moved]
  omega

theorem Span.apart_moved {n : Nat} {a b : Span} :
    (a.moved n).Apart (b.moved n) ↔ a.Apart b := by
  unfold Apart
  simp only [start_moved, stop_moved]
  omega

namespace Edit

def moved (n : Nat) : Edit → Edit
  | .delete r => .delete (r.moved n)
  | .replace r text => .replace (r.moved n) text

@[simp] theorem range_moved (n : Nat) (e : Edit) : (e.moved n).range = e.range.moved n := by
  cases e <;> rfl

@[simp] theorem replacement_moved (n : Nat) (e : Edit) :
    (e.moved n).replacement = e.replacement := by
  cases e <;> rfl

variable {front text code : List Char} {es : List Edit}

theorem insertSorted_moved (n : Nat) (e : Edit) (es : List Edit) :
    insertSorted (e.moved n) (es.map (moved n)) = (insertSorted e es).map (moved n) := by
  induction es with
  | nil => rfl
  | cons f fs ih =>
    simp only [List.map_cons, insertSorted, range_moved, Span.le_moved]
    split
    · rfl
    · rw [ih, List.map_cons]

theorem sort_moved (n : Nat) (es : List Edit) :
    sort (es.map (moved n)) = (sort es).map (moved n) := by
  induction es with
  | nil => rfl
  | cons e es ih =>
    change insertSorted (e.moved n) (sort (es.map (moved n))) = _
    rw [ih, insertSorted_moved]
    rfl

theorem accepted_moved : Accepted (front ++ text) (es.map (moved (Text.byteLength front))) ↔
    Accepted text es := by
  have hvalid : (∀ e ∈ es.map (moved (Text.byteLength front)),
      e.range.isValidIn (front ++ text) = true) ↔ ∀ e ∈ es, e.range.isValidIn text = true := by
    simp only [List.forall_mem_map, range_moved, Span.isValidIn_moved]
  have hapart : (es.map (moved (Text.byteLength front))).Pairwise
      (fun a b => a.range.Apart b.range) ↔ es.Pairwise fun a b => a.range.Apart b.range := by
    simp only [List.pairwise_map, range_moved, Span.apart_moved]
  constructor
  · rintro ⟨hv, ha⟩
    exact ⟨hvalid.mp hv, hapart.mp ha⟩
  · rintro ⟨hv, ha⟩
    exact ⟨hvalid.mpr hv, hapart.mpr ha⟩

theorem pieces_moved (n position : Nat) (rest : List Char) (es : List Edit) :
    pieces (position + n) rest (es.map (moved n)) = pieces position rest es := by
  induction es generalizing position rest with
  | nil => rfl
  | cons e es ih =>
    simp only [List.map_cons, pieces, range_moved, replacement_moved, Span.start_moved,
      Span.stop_moved, Nat.add_sub_add_right, ih]

theorem flatMap_output_pieces_moved (front text : List Char) (es : List Edit) :
    (pieces 0 (front ++ text) (es.map (moved (Text.byteLength front)))).flatMap Piece.output =
      front ++ (pieces 0 text es).flatMap Piece.output := by
  cases es with
  | nil => simp [pieces, Piece.output]
  | cons e es =>
    simp only [List.map_cons, pieces, range_moved, replacement_moved, Span.start_moved,
      Span.stop_moved, Nat.add_sub_add_right, Nat.sub_zero, Text.splitAtByte_behind, pieces_moved,
      List.flatMap_cons, Piece.output, List.append_assoc]

/-- Edits that are moved by the length of the text in front of a document leave that text, and
behind it what they make of the document alone. -/
theorem apply_moved (h : apply text es = .ok code) :
    apply (front ++ text) (es.map (moved (Text.byteLength front))) = .ok (front ++ code) := by
  have haccepted : Accepted (front ++ text) (es.map (moved (Text.byteLength front))) :=
    accepted_moved.mpr (exists_apply_iff.mp ⟨code, h⟩)
  obtain ⟨ps, hps⟩ := exists_cut_iff.mpr haccepted
  obtain ⟨qs, hqs, rfl⟩ := apply_eq_ok_iff.mp h
  refine apply_eq_ok_iff.mpr ⟨ps, hps, ?_⟩
  rw [← (cut_eq_ok_iff.mp hps).2, ← (cut_eq_ok_iff.mp hqs).2, sort_moved,
    flatMap_output_pieces_moved]

end Edit

end Outdent
