import Mathlib.Data.List.DropRight
import Mathlib.Data.List.Induction
import Mathlib.Tactic.Common
import Outdent.PositionMap
/-! # Mappings in reading order

A cursor moves on at every character. So the mappings of a piece point between its start and its
end, what later pieces record lies beyond, and the last mapping at or before a character is one of
the piece that the character belongs to. -/
namespace Outdent

namespace Cursor

theorem le_iff {a b : Cursor} :
    a.le b = true ↔ a.line < b.line ∨ (a.line = b.line ∧ a.column ≤ b.column) := by
  simp [le]

theorem le_refl (a : Cursor) : a.le a = true := by
  rw [le_iff]
  omega

theorem le_trans {a b c : Cursor} (h : a.le b = true) (k : b.le c = true) : a.le c = true := by
  rw [le_iff] at h k ⊢
  omega

theorem units_pos (c : Char) : 0 < units c := by
  unfold units
  split <;> omega

theorem le_advance (p : Cursor) (c : Char) : p.le (p.advance c) = true := by
  rw [le_iff, advance]
  split
  · exact Or.inl (Nat.lt_succ_self _)
  · exact Or.inr ⟨rfl, Nat.le_add_right _ _⟩

theorem not_advance_le (p : Cursor) (c : Char) : ¬ (p.advance c).le p = true := by
  have hc := units_pos c
  rw [le_iff, advance]
  split <;> simp only <;> omega

@[simp] theorem advanceText_nil (p : Cursor) : p.advanceText [] = p := rfl

@[simp] theorem advanceText_cons (p : Cursor) (c : Char) (cs : List Char) :
    p.advanceText (c :: cs) = (p.advance c).advanceText cs := rfl

theorem le_advanceText (p : Cursor) (cs : List Char) : p.le (p.advanceText cs) = true := by
  induction cs generalizing p with
  | nil => exact le_refl p
  | cons c cs ih => exact le_trans (le_advance p c) (ih (p.advance c))

theorem advance_le_advanceText (p : Cursor) (u : List Char) (c : Char) (v : List Char) :
    ((p.advanceText u).advance c).le (p.advanceText (u ++ c :: v)) = true := by
  rw [advanceText_append, advanceText_cons]
  exact le_advanceText _ v

theorem not_le_of_advance_le {p q : Cursor} {c : Char} (h : (p.advance c).le q = true) :
    ¬ q.le p = true :=
  fun hq => not_advance_le p c (le_trans h hq)

def width : List Char → Nat
  | [] => 0
  | c :: cs => units c + width cs

theorem width_append (xs ys : List Char) : width (xs ++ ys) = width xs + width ys := by
  induction xs with
  | nil => simp [width]
  | cons c xs ih => simp [width, ih, Nat.add_assoc]

theorem advanceText_of_sameLine (p : Cursor) {cs : List Char} (h : '\n' ∉ cs) :
    p.advanceText cs = ⟨p.line, p.column + width cs⟩ := by
  induction cs generalizing p with
  | nil => rfl
  | cons c cs ih =>
    rw [List.mem_cons, not_or] at h
    obtain ⟨hc, hcs⟩ := h
    have hstep : p.advance c = ⟨p.line, p.column + units c⟩ := if_neg (Ne.symm hc)
    rw [advanceText_cons, hstep, ih _ hcs, width, Nat.add_assoc]

/-- Where a text ends: its line feeds, and the UTF-16 units since the last one. -/
def endOf (text : List Char) : Cursor :=
  ⟨text.count '\n', width (text.rtakeWhile (· ≠ '\n'))⟩

theorem advanceText_origin (text : List Char) : origin.advanceText text = endOf text := by
  induction text using List.reverseRecOn with
  | nil => rfl
  | append_singleton text c ih =>
    rw [advanceText_append, ih, advanceText_cons, advanceText_nil, advance]
    by_cases hc : c = '\n'
    · simp [endOf, hc, width]
    · simp [endOf, hc, width, width_append]

theorem advanceText_endOf (xs ys : List Char) : (endOf xs).advanceText ys = endOf (xs ++ ys) := by
  rw [← advanceText_origin, ← advanceText_origin, advanceText_append]

/-- A character outside the basic plane has two units. -/
example : endOf "é😀".toList = ⟨0, 3⟩ ∧ endOf "é😀\nab".toList = ⟨1, 2⟩ := by decide

end Cursor

namespace Mapping

/-- The last mapping at or before a position. -/
def lastAt (ms : List Mapping) (p : Cursor) : Option Mapping :=
  (ms.filter (·.output.le p)).getLast?

theorem mem_of_lastAt {ms : List Mapping} {p : Cursor} {m : Mapping} (h : lastAt ms p = some m) :
    m ∈ ms := (List.mem_filter.mp (List.mem_of_getLast? h)).1

theorem lookup_of_lastAt {map : PositionMap} {p : Cursor} {m : Mapping}
    (h : lastAt map.mappings p = some m) (hline : m.output.line = p.line) :
    map.lookup p = some m.origin := by
  have hlast : (map.mappings.filter (·.output.le p)).getLast? = some m := h
  rw [PositionMap.lookup, hlast]
  exact if_pos hline

theorem lastAt_append_of_eq_some {ms : List Mapping} {p : Cursor} {m : Mapping}
    (h : lastAt ms p = some m) (ns : List Mapping) : lastAt (ns ++ ms) p = some m := by
  unfold lastAt at *
  rw [List.filter_append, List.getLast?_append, h]
  rfl

theorem lastAt_append_of_beyond {ms : List Mapping} {p : Cursor}
    (h : ∀ m ∈ ms, ¬ m.output.le p = true) (ns : List Mapping) :
    lastAt (ns ++ ms) p = lastAt ns p := by
  have hms : ms.filter (·.output.le p) = [] := List.filter_eq_nil_iff.mpr h
  rw [lastAt, List.filter_append, hms, List.append_nil, lastAt]

/-- Mappings that all point to characters of a text, which starts at a position. -/
def PointInto (start : Cursor) (text : List Char) (ms : List Mapping) : Prop :=
  ∀ m ∈ ms, ∃ u c v, text = u ++ c :: v ∧ m.output = start.advanceText u

variable {start output origin p : Cursor} {text : List Char} {ms ns : List Mapping}

theorem PointInto.start_le (h : PointInto start text ms) : ∀ m ∈ ms, start.le m.output = true := by
  intro m hm
  obtain ⟨u, -, -, -, ho⟩ := h m hm
  rw [ho]
  exact Cursor.le_advanceText start u

theorem beyond_of_start_le {c : Char} (h : ∀ m ∈ ms, start.le m.output = true)
    (hle : (p.advance c).le start = true) : ∀ m ∈ ms, ¬ m.output.le p = true :=
  fun m hm => Cursor.not_le_of_advance_le (Cursor.le_trans hle (h m hm))

theorem PointInto.skip {c : Char} (h : PointInto (start.advance c) text ms) :
    PointInto start (c :: text) ms := by
  intro m hm
  obtain ⟨u, d, v, rfl, ho⟩ := h m hm
  exact ⟨c :: u, d, v, rfl, ho⟩

theorem PointInto.cons {c : Char} (h : PointInto (start.advance c) text ms) :
    PointInto start (c :: text) (⟨start, origin⟩ :: ms) := by
  intro m hm
  rcases List.mem_cons.mp hm with rfl | hm
  · exact ⟨[], c, text, rfl, rfl⟩
  · exact h.skip m hm

theorem PointInto.append {rest : List Char} (h : PointInto start text ms)
    (k : PointInto (start.advanceText text) rest ns) :
    PointInto start (text ++ rest) (ms ++ ns) := by
  intro m hm
  rcases List.mem_append.mp hm with hm | hm
  · obtain ⟨u, c, v, rfl, ho⟩ := h m hm
    exact ⟨u, c, v ++ rest, by simp, ho⟩
  · obtain ⟨u, c, v, rfl, ho⟩ := k m hm
    exact ⟨text ++ u, c, v, by simp, by rw [ho, Cursor.advanceText_append]⟩

theorem pointInto_ofKept (resolution : Resolution) (fresh : Bool) (output origin : Cursor)
    (cs : List Char) : PointInto output cs (ofKept resolution fresh output origin cs) := by
  induction cs generalizing fresh output origin with
  | nil => simp [PointInto, ofKept]
  | cons c cs ih =>
    have hrest := ih (decide (c = '\n')) (output.advance c) (origin.advance c)
    simp only [ofKept]
    split
    · exact hrest.cons
    · exact hrest.skip

/-- Replacing text is mapped as kept text is, but to one position. -/
theorem ofSwapped_eq_map (anchor : Cursor) (fresh : Bool) (output origin : Cursor)
    (cs : List Char) : ofSwapped anchor fresh output cs =
      (ofKept .boundary fresh output origin cs).map fun m => ⟨m.output, anchor⟩ := by
  induction cs generalizing fresh output origin with
  | nil => rfl
  | cons c cs ih =>
    simp only [ofSwapped, ofKept, ih _ (output.advance c) (origin.advance c)]
    cases fresh <;> simp

theorem lastAt_ofSwapped (anchor : Cursor) (fresh : Bool) (output origin : Cursor)
    (cs : List Char) (p : Cursor) : lastAt (ofSwapped anchor fresh output cs) p =
      (lastAt (ofKept .boundary fresh output origin cs) p).map fun m => ⟨m.output, anchor⟩ := by
  rw [ofSwapped_eq_map anchor fresh output origin, lastAt, lastAt, List.filter_map,
    List.getLast?_map]
  rfl

theorem pointInto_ofPiece (resolution : Resolution) (output origin : Cursor) (piece : Edit.Piece) :
    PointInto output piece.output (ofPiece resolution output origin piece) := by
  cases piece with
  | kept cs => exact pointInto_ofKept resolution true output origin cs
  | swapped old new =>
    intro m hm
    simp only [ofPiece, ofSwapped_eq_map origin true output origin, List.mem_map] at hm
    obtain ⟨k, hk, rfl⟩ := hm
    exact pointInto_ofKept .boundary true output origin new k hk

theorem pointInto_ofPieces (resolution : Resolution) (output origin : Cursor)
    (ps : List Edit.Piece) :
    PointInto output (ps.flatMap Edit.Piece.output) (ofPieces resolution output origin ps) := by
  induction ps generalizing output origin with
  | nil => simp [PointInto, ofPieces]
  | cons piece ps ih => exact (pointInto_ofPiece resolution output origin piece).append (ih _ _)

def Ascending (ms : List Mapping) : Prop := ms.Pairwise fun a b => ¬ b.output.le a.output = true

theorem Ascending.append (h : Ascending ms) (k : Ascending ns) (hms : PointInto start text ms)
    (hns : ∀ n ∈ ns, (start.advanceText text).le n.output = true) : Ascending (ms ++ ns) := by
  refine List.pairwise_append.mpr ⟨h, k, fun m hm n hn => ?_⟩
  obtain ⟨u, c, v, rfl, ho⟩ := hms m hm
  rw [ho]
  exact beyond_of_start_le hns (Cursor.advance_le_advanceText start u c v) n hn

theorem ascending_ofKept (resolution : Resolution) (fresh : Bool) (output origin : Cursor)
    (cs : List Char) : Ascending (ofKept resolution fresh output origin cs) := by
  induction cs generalizing fresh output origin with
  | nil => exact List.Pairwise.nil
  | cons c cs ih =>
    have hrest := ih (decide (c = '\n')) (output.advance c) (origin.advance c)
    have hbeyond := beyond_of_start_le (pointInto_ofKept resolution (decide (c = '\n'))
      (output.advance c) (origin.advance c) cs).start_le (Cursor.le_refl _)
    simp only [ofKept]
    split
    · exact List.pairwise_cons.mpr ⟨hbeyond, hrest⟩
    · exact hrest

theorem ascending_ofPieces (resolution : Resolution) (output origin : Cursor)
    (ps : List Edit.Piece) : Ascending (ofPieces resolution output origin ps) := by
  induction ps generalizing output origin with
  | nil => exact List.Pairwise.nil
  | cons piece ps ih =>
    have hpiece : Ascending (ofPiece resolution output origin piece) := by
      cases piece with
      | kept cs => exact ascending_ofKept resolution true output origin cs
      | swapped old new =>
        simp only [ofPiece, ofSwapped_eq_map origin true output origin]
        exact List.pairwise_map.mpr (ascending_ofKept .boundary true output origin new)
    exact hpiece.append (ih _ _) (pointInto_ofPiece resolution output origin piece)
      (pointInto_ofPieces resolution _ _ ps).start_le

/-- In ascending order the last mapping at or before a position is the greatest such mapping. -/
theorem le_of_lastAt (h : Ascending ms) {m n : Mapping} (hm : lastAt ms p = some m) (hn : n ∈ ms)
    (hle : n.output.le p = true) : n = m ∨ ¬ m.output.le n.output = true := by
  obtain ⟨front, hfront⟩ := List.getLast?_eq_some_iff.mp hm
  have hpair : Ascending (front ++ [m]) := hfront ▸ h.filter _
  have hmem : n ∈ front ++ [m] := hfront ▸ List.mem_filter.mpr ⟨hn, hle⟩
  rcases List.mem_append.mp hmem with hmem | hmem
  · exact Or.inr ((List.pairwise_append.mp hpair).2.2 n hmem m List.mem_cons_self)
  · exact Or.inl (List.mem_singleton.mp hmem)

theorem lastAt_ofKept_char (fresh : Bool) (output origin : Cursor) (u : List Char) (c : Char)
    (v : List Char) : lastAt (ofKept .char fresh output origin (u ++ c :: v))
      (output.advanceText u) = some ⟨output.advanceText u, origin.advanceText u⟩ := by
  induction u generalizing fresh output origin with
  | nil =>
    have hrest := beyond_of_start_le (pointInto_ofKept .char (decide (c = '\n'))
      (output.advance c) (origin.advance c) v).start_le (Cursor.le_refl _)
    have hlast := lastAt_append_of_beyond hrest [⟨output, origin⟩]
    simpa [ofKept, lastAt, Cursor.le_refl] using hlast
  | cons d u ih =>
    have hrest := ih (decide (d = '\n')) (output.advance d) (origin.advance d)
    simpa [ofKept] using lastAt_append_of_eq_some hrest [⟨output, origin⟩]

/-- Whether the character behind a text is mapped at the coarse resolution. -/
def freshAfter (fresh : Bool) (cs : List Char) : Bool :=
  cs.foldl (fun _ c => decide (c = '\n')) fresh

theorem freshAfter_eq_true_iff {cs : List Char} :
    freshAfter true cs = true ↔ cs = [] ∨ ∃ front, cs = front ++ ['\n'] := by
  induction cs using List.reverseRecOn with
  | nil => simp [freshAfter]
  | append_singleton cs c _ => simp [freshAfter]

theorem ofKept_append (resolution : Resolution) (fresh : Bool) (output origin : Cursor)
    (cs ds : List Char) : ofKept resolution fresh output origin (cs ++ ds) =
      ofKept resolution fresh output origin cs ++ ofKept resolution (freshAfter fresh cs)
        (output.advanceText cs) (origin.advanceText cs) ds := by
  induction cs generalizing fresh output origin with
  | nil => rfl
  | cons c cs ih =>
    simp only [List.cons_append, ofKept, ih]
    split <;> rfl

/-- No mapping stands between a character that is not mapped and the end of its line. -/
theorem ofKept_beyond_of_sameLine {x : List Char} (hx : '\n' ∉ x) (output origin : Cursor)
    (c : Char) (v : List Char) : ∀ m ∈ ofKept .boundary false output origin (x ++ c :: v),
      ¬ m.output.le (output.advanceText x) = true := by
  induction x generalizing output origin with
  | nil =>
    have hrest := pointInto_ofKept .boundary (decide (c = '\n')) (output.advance c)
      (origin.advance c) v
    simpa [ofKept] using beyond_of_start_le hrest.start_le (Cursor.le_refl _)
  | cons d x ih =>
    rw [List.mem_cons, not_or] at hx
    obtain ⟨hd, hx⟩ := hx
    simpa [ofKept, Ne.symm hd] using ih hx (output.advance d) (origin.advance d)

theorem lastAt_ofKept_of_sameLine {x : List Char} (hx : '\n' ∉ x) (output origin : Cursor)
    (c : Char) (v : List Char) : lastAt (ofKept .boundary true output origin (x ++ c :: v))
      (output.advanceText x) = some ⟨output, origin⟩ := by
  cases x with
  | nil =>
    have hrest := beyond_of_start_le (pointInto_ofKept .boundary (decide (c = '\n'))
      (output.advance c) (origin.advance c) v).start_le (Cursor.le_refl _)
    have hlast := lastAt_append_of_beyond hrest [⟨output, origin⟩]
    simpa [ofKept, lastAt, Cursor.le_refl] using hlast
  | cons d x =>
    rw [List.mem_cons, not_or] at hx
    obtain ⟨hd, hx⟩ := hx
    have hrest := ofKept_beyond_of_sameLine hx (output.advance d) (origin.advance d) c v
    have hlast := lastAt_append_of_beyond hrest [⟨output, origin⟩]
    have hle : output.le ((output.advance d).advanceText x) = true :=
      Cursor.le_advanceText output (d :: x)
    simpa [ofKept, lastAt, Ne.symm hd, hle] using hlast

theorem exists_lastLine (u : List Char) :
    ∃ w x, u = w ++ x ∧ '\n' ∉ x ∧ (w = [] ∨ ∃ w', w = w' ++ ['\n']) := by
  induction u using List.reverseRecOn with
  | nil => exact ⟨[], [], rfl, by simp, Or.inl rfl⟩
  | append_singleton u c ih =>
    by_cases hc : c = '\n'
    · exact ⟨u ++ [c], [], by simp, by simp, Or.inr ⟨u, by rw [hc]⟩⟩
    · obtain ⟨w, x, rfl, hx, hw⟩ := ih
      exact ⟨w, x ++ [c], by simp, by simp [hx, Ne.symm hc], hw⟩

/-- At the coarse resolution it is the mapping of the line that the character stands on, or of the
start of the piece. -/
theorem lastAt_ofKept_boundary {w x : List Char} (hx : '\n' ∉ x)
    (hw : w = [] ∨ ∃ w', w = w' ++ ['\n']) (output origin : Cursor) (c : Char) (v : List Char) :
    lastAt (ofKept .boundary true output origin (w ++ x ++ c :: v)) (output.advanceText (w ++ x)) =
      some ⟨output.advanceText w, origin.advanceText w⟩ := by
  have hfresh : freshAfter true w = true := freshAfter_eq_true_iff.mpr hw
  rw [List.append_assoc, ofKept_append, hfresh, Cursor.advanceText_append]
  exact lastAt_append_of_eq_some (lastAt_ofKept_of_sameLine hx _ _ c v) _

end Mapping

end Outdent
