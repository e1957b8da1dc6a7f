import Mathlib.Tactic.Common
import Outdent.Glob.Basic
/-! # What glob patterns match

Each part of a pattern stands for certain rows of bytes, and a row of parts for those put one behind
another. The remainders that matching computes are what is left behind such bytes, so a path matches
exactly if its bytes are some that the pattern stands for. -/
namespace Outdent.Glob

mutual

def Part.Matches : Part → List UInt8 → Prop
  | .literal c, bs => bs = String.utf8EncodeChar c
  | .anyByte, bs => ∃ b, bs = [b]
  | .anyRun, _ => True
  | .nameByte, bs => ∃ b, b ≠ separator ∧ bs = [b]
  | .nameRun, bs => separator ∉ bs
  | .leadingDirectories, bs => bs = [] ∨ ∃ front, bs = front ++ [separator]
  | .trailingPath, bs => ∃ back, bs = separator :: back
  | .innerDirectories, bs =>
    bs = [separator] ∨ ∃ middle, bs = separator :: (middle ++ [separator])
  | .byteClass negated ranges, bs =>
    ∃ b, (ranges.any (inRange b) != negated) = true ∧ bs = [b]
  | .alternatives rows, bs => if rowsAreVoid rows then bs = [] else SomeRowMatches rows bs

def RowMatches : List Part → List UInt8 → Prop
  | [], bs => bs = []
  | p :: ps, bs => ∃ xs ys, bs = xs ++ ys ∧ p.Matches xs ∧ RowMatches ps ys

/-- The bytes that one of several rows stands for; rows that stand for nothing do not count. -/
def SomeRowMatches : List (List Part) → List UInt8 → Prop
  | [], _ => False
  | row :: rows, bs => rowIsVoid row = false ∧ RowMatches row bs ∨ SomeRowMatches rows bs

end

/-! ## Remainders -/

variable {path rest : List UInt8}

theorem mem_remainders_iff : rest ∈ remainders path ↔ ∃ xs, path = xs ++ rest := by
  induction path with
  | nil => simp [remainders, eq_comm]
  | cons b bs ih =>
    rw [remainders, List.mem_cons, ih]
    constructor
    · rintro (rfl | ⟨xs, rfl⟩)
      · exact ⟨[], rfl⟩
      · exact ⟨b :: xs, rfl⟩
    · rintro ⟨xs, h⟩
      rcases List.cons_eq_append_iff.mp h with ⟨rfl, rfl⟩ | ⟨xs, rfl, hbs⟩
      · exact Or.inl rfl
      · exact Or.inr ⟨xs, hbs⟩

theorem mem_remaindersInName_iff :
    rest ∈ remaindersInName path ↔ ∃ xs, separator ∉ xs ∧ path = xs ++ rest := by
  induction path with
  | nil => simp [remaindersInName, eq_comm]
  | cons b bs ih =>
    rw [remaindersInName, List.mem_cons]
    constructor
    · rintro (rfl | h)
      · exact ⟨[], List.not_mem_nil, rfl⟩
      · split at h
        · exact absurd h List.not_mem_nil
        · next hb =>
          obtain ⟨xs, hxs, rfl⟩ := ih.mp h
          exact ⟨b :: xs, by simp [hxs, Ne.symm hb], rfl⟩
    · rintro ⟨xs, hxs, h⟩
      rcases List.cons_eq_append_iff.mp h with ⟨rfl, rfl⟩ | ⟨xs, rfl, hbs⟩
      · exact Or.inl rfl
      · rw [List.mem_cons, not_or] at hxs
        rw [if_neg (Ne.symm hxs.1)]
        exact Or.inr (ih.mpr ⟨xs, hxs.2, hbs⟩)

theorem mem_afterSeparators_iff :
    rest ∈ afterSeparators path ↔ ∃ xs, path = xs ++ [separator] ++ rest := by
  induction path with
  | nil => simp [afterSeparators]
  | cons b bs ih =>
    have hhead : rest ∈ afterSeparators (b :: bs) ↔
        b = separator ∧ rest = bs ∨ rest ∈ afterSeparators bs := by
      rw [afterSeparators]
      split <;> simp [*]
    rw [hhead, ih]
    constructor
    · rintro (⟨rfl, rfl⟩ | ⟨xs, rfl⟩)
      · exact ⟨[], rfl⟩
      · exact ⟨b :: xs, rfl⟩
    · rintro ⟨xs, h⟩
      cases xs with
      | nil =>
        obtain ⟨rfl, rfl⟩ := List.cons.inj h
        exact Or.inl ⟨rfl, rfl⟩
      | cons x xs => exact Or.inr ⟨xs, (List.cons.inj h).2⟩

theorem stripBytes_eq_some_iff {xs : List UInt8} :
    stripBytes xs path = some rest ↔ path = xs ++ rest := by
  induction xs generalizing path with
  | nil => simp [stripBytes]
  | cons x xs ih =>
    cases path with
    | nil => simp [stripBytes]
    | cons b bs =>
      rw [stripBytes]
      split
      · next hx => simp [hx, ih]
      · next hx => simp [Ne.symm hx]

theorem mem_restOfRow_cons_iff {p : Part} {ps : List Part} :
    rest ∈ restOfRow (p :: ps) path ↔ ∃ middle ∈ p.rest path, rest ∈ restOfRow ps middle := by
  rw [restOfRow, List.mem_eraseDups, List.mem_flatMap]

/-! ## Parts and rows -/

mutual

theorem Part.mem_rest_iff : (p : Part) → (path rest : List UInt8) →
    (rest ∈ p.rest path ↔ ∃ xs, p.Matches xs ∧ path = xs ++ rest)
  | .literal c, path, rest => by
    simp only [Part.rest, Part.Matches, Option.mem_toList, stripBytes_eq_some_iff,
      exists_eq_left]
  | .anyByte, [], rest => by simp [Part.rest, Part.Matches]
  | .anyByte, b :: bs, rest => by simp [Part.rest, Part.Matches, eq_comm]
  | .anyRun, path, rest => by
    simp only [Part.rest, Part.Matches, mem_remainders_iff, true_and]
  | .nameByte, [], rest => by simp [Part.rest, Part.Matches]
  | .nameByte, b :: bs, rest => by
    by_cases hb : b = separator <;> simp [Part.rest, Part.Matches, hb, eq_comm]
  | .nameRun, path, rest => by
    simp only [Part.rest, Part.Matches, mem_remaindersInName_iff]
  | .leadingDirectories, path, rest => by
    simp only [Part.rest, Part.Matches, List.mem_cons, mem_afterSeparators_iff, or_and_right,
      exists_or, exists_eq_left, List.nil_append, eq_comm (a := rest)]
    simp
  | .trailingPath, [], rest => by simp [Part.rest, Part.Matches]
  | .trailingPath, b :: bs, rest => by
    by_cases hb : b = separator <;> simp [Part.rest, Part.Matches, hb, mem_remainders_iff]
  | .innerDirectories, [], rest => by simp [Part.rest, Part.Matches]
  | .innerDirectories, b :: bs, rest => by
    by_cases hb : b = separator <;>
      simp [Part.rest, Part.Matches, hb, mem_afterSeparators_iff, or_and_right, exists_or, eq_comm]
  | .byteClass negated ranges, [], rest => by simp [Part.rest, Part.Matches]
  | .byteClass negated ranges, b :: bs, rest => by
    simp only [Part.rest, Part.Matches]
    constructor
    · intro h
      split at h
      · next hb => exact ⟨[b], ⟨b, hb, rfl⟩, by rw [List.mem_singleton.mp h]; rfl⟩
      · exact absurd h List.not_mem_nil
    · rintro ⟨_, ⟨b', hb, rfl⟩, h⟩
      obtain ⟨rfl, rfl⟩ := List.cons.inj h
      rw [if_pos hb]
      exact List.mem_singleton.mpr rfl
  | .alternatives rows, path, rest => by
    simp only [Part.rest, Part.Matches]
    cases rowsAreVoid rows with
    | true => simp [eq_comm]
    | false => simpa using mem_restOfAny_iff rows path rest

theorem mem_restOfRow_iff : (ps : List Part) → (path rest : List UInt8) →
    (rest ∈ restOfRow ps path ↔ ∃ xs, RowMatches ps xs ∧ path = xs ++ rest)
  | [], path, rest => by
    simp only [restOfRow, RowMatches, List.mem_singleton, exists_eq_left, List.nil_append, eq_comm]
  | p :: ps, path, rest => by
    rw [mem_restOfRow_cons_iff]
    simp only [RowMatches]
    constructor
    · rintro ⟨middle, hmiddle, hrest⟩
      obtain ⟨xs, hxs, rfl⟩ := (Part.mem_rest_iff p path middle).mp hmiddle
      obtain ⟨ys, hys, rfl⟩ := (mem_restOfRow_iff ps middle rest).mp hrest
      exact ⟨xs ++ ys, ⟨xs, ys, rfl, hxs, hys⟩, (List.append_assoc xs ys rest).symm⟩
    · rintro ⟨_, ⟨xs, ys, rfl, hxs, hys⟩, rfl⟩
      refine ⟨ys ++ rest, (Part.mem_rest_iff p _ _).mpr ⟨xs, hxs, List.append_assoc xs ys rest⟩, ?_⟩
      exact (mem_restOfRow_iff ps _ rest).mpr ⟨ys, hys, rfl⟩

theorem mem_restOfAny_iff : (rows : List (List Part)) → (path rest : List UInt8) →
    (rest ∈ restOfAny rows path ↔ ∃ xs, SomeRowMatches rows xs ∧ path = xs ++ rest)
  | [], path, rest => by simp [restOfAny, SomeRowMatches]
  | row :: rows, path, rest => by
    simp only [restOfAny, SomeRowMatches]
    cases rowIsVoid row with
    | true => simpa using mem_restOfAny_iff rows path rest
    | false =>
      simp only [Bool.false_eq_true, if_false, List.mem_append, mem_restOfRow_iff row path rest,
        mem_restOfAny_iff rows path rest, true_and, or_and_right, exists_or]

end

theorem someRowMatches_iff {rows : List (List Part)} {bs : List UInt8} :
    SomeRowMatches rows bs ↔ ∃ row ∈ rows, rowIsVoid row = false ∧ RowMatches row bs := by
  induction rows with
  | nil => simp [SomeRowMatches]
  | cons row rows ih => simp [SomeRowMatches, ih]

theorem rowMatches_singleton_iff {p : Part} {bs : List UInt8} :
    RowMatches [p] bs ↔ p.Matches bs := by
  simp [RowMatches]

theorem rowMatches_literal_cons_iff {c : Char} {ps : List Part} {bs : List UInt8} :
    RowMatches (.literal c :: ps) bs ↔
      ∃ ys, bs = String.utf8EncodeChar c ++ ys ∧ RowMatches ps ys := by
  simp only [RowMatches, Part.Matches]
  constructor
  · rintro ⟨_, ys, rfl, rfl, hys⟩
    exact ⟨ys, rfl, hys⟩
  · rintro ⟨ys, rfl, hys⟩
    exact ⟨_, ys, rfl, rfl, hys⟩

theorem rowMatches_literals_append_iff {text : List Char} {ps : List Part} {bs : List UInt8} :
    RowMatches (text.map .literal ++ ps) bs ↔ ∃ ys, bs = bytes text ++ ys ∧ RowMatches ps ys := by
  induction text generalizing bs with
  | nil => simp [bytes]
  | cons c cs ih =>
    rw [List.map_cons, List.cons_append, rowMatches_literal_cons_iff]
    constructor
    · rintro ⟨_, rfl, hrest⟩
      obtain ⟨ys, rfl, hys⟩ := ih.mp hrest
      exact ⟨ys, by simp [bytes], hys⟩
    · rintro ⟨ys, rfl, hys⟩
      exact ⟨bytes cs ++ ys, by simp [bytes], ih.mpr ⟨ys, rfl, hys⟩⟩

theorem rowMatches_literals_iff {text : List Char} {bs : List UInt8} :
    RowMatches (text.map .literal) bs ↔ bs = bytes text := by
  have h := @rowMatches_literals_append_iff text [] bs
  simpa [RowMatches] using h

theorem rowMatches_anywhere_iff {ps : List Part} {bs : List UInt8} :
    RowMatches (.leadingDirectories :: .anyRun :: ps) bs ↔
      ∃ front ys, bs = front ++ ys ∧ RowMatches ps ys := by
  simp only [RowMatches, Part.Matches]
  constructor
  · rintro ⟨directories, _, rfl, -, name, ys, rfl, -, hys⟩
    exact ⟨directories ++ name, ys, (List.append_assoc _ _ _).symm, hys⟩
  · rintro ⟨front, ys, rfl, hys⟩
    exact ⟨[], front ++ ys, rfl, Or.inl rfl, front, ys, rfl, trivial, hys⟩

/-- A path matches if its bytes are some that the pattern stands for; a pattern that asks for a
name and ends in a dot is not met by a path that leads upwards. -/
theorem Pattern.matchesBytes_iff {pattern : Pattern} :
    pattern.matchesBytes path = true ↔ pattern.parts = [.leadingDirectories] ∨
      (leadsUp path && asksForDotName pattern.parts) = false ∧ RowMatches pattern.parts path := by
  have hnothing : (restOfRow pattern.parts path).contains [] = true ↔
      RowMatches pattern.parts path := by
    rw [List.contains_iff_mem, mem_restOfRow_iff]
    simp
  unfold matchesBytes
  split
  · next hparts => simp [hparts]
  · next hparts =>
    rw [Bool.and_eq_true, hnothing, Bool.not_eq_true', or_iff_right hparts]

theorem Pattern.matchesBytes_iff_rowMatches {pattern : Pattern}
    (hparts : pattern.parts ≠ [.leadingDirectories])
    (hdot : asksForDotName pattern.parts = false) :
    pattern.matchesBytes path = true ↔ RowMatches pattern.parts path := by
  rw [matchesBytes_iff, or_iff_right hparts, hdot, Bool.and_false]
  exact and_iff_right rfl

end Outdent.Glob
