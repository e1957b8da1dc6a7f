import Outdent.Proofs.Segment.Stripping
import Outdent.Proofs.Text.Lines
/-! # The indentation of a segment

A line has an indentation if it starts with blanks and something else stands behind them. The least
one of a segment is that of one of its lines, and a segment without any is only trimmed. -/
namespace Outdent.Segment

open Text

variable {line : List Char} {ls : List (List Char)}

theorem leadingIndent_eq_some_iff {n : Nat} : leadingIndent line = some n ↔
    0 < n ∧ n < line.length ∧ (line.takeWhile isBlank).length = n := by
  unfold leadingIndent
  generalize (line.takeWhile isBlank).length = k
  cases k with
  | zero =>
    simp only [reduceCtorEq, false_iff]
    omega
  | succ k =>
    simp only
    split
    · simp only [Option.some.injEq]
      omega
    · simp only [reduceCtorEq, false_iff]
      omega

theorem leadingIndent_of_allBlank (h : AllBlank line) : leadingIndent line = none := by
  have hwhole : line.takeWhile isBlank = line := List.takeWhile_eq_self_iff.mpr h
  cases hindent : leadingIndent line with
  | none => rfl
  | some n =>
    obtain ⟨-, hlt, heq⟩ := leadingIndent_eq_some_iff.mp hindent
    rw [hwhole] at heq
    omega

theorem minimumIndent_eq_some_iff {n : Nat} : minimumIndent ls = some n ↔
    (∃ l ∈ ls, leadingIndent l = some n) ∧
      ∀ l ∈ ls, ∀ m, leadingIndent l = some m → n ≤ m := by
  rw [minimumIndent, List.min?_eq_some_iff, List.mem_filterMap]
  refine and_congr_right fun _ => ?_
  constructor
  · intro h l hl m hm
    exact h m (List.mem_filterMap.mpr ⟨l, hl, hm⟩)
  · intro h m hm
    obtain ⟨l, hl, hindent⟩ := List.mem_filterMap.mp hm
    exact h l hl m hindent

theorem minimumIndent_eq_none_iff : minimumIndent ls = none ↔ ∀ l ∈ ls, leadingIndent l = none := by
  rw [minimumIndent, List.min?_eq_none_iff, List.filterMap_eq_nil_iff]

theorem minimumIndent_of_allBlank (h : ∀ l ∈ ls, AllBlank l) : minimumIndent ls = none :=
  minimumIndent_eq_none_iff.mpr fun l hl => leadingIndent_of_allBlank (h l hl)

theorem allBlank_joinLines (h : ∀ l ∈ ls, AllBlank l) : AllBlank (joinLines ls) := by
  induction ls with
  | nil => simp [joinLines, AllBlank]
  | cons l ls ih =>
    obtain ⟨hl, hrest⟩ := List.forall_mem_cons.mp h
    by_cases hls : ls = []
    · subst hls
      exact hl
    · rw [joinLines_cons l hls]
      refine List.forall_mem_append.mpr ⟨hl, List.forall_mem_cons.mpr ⟨?_, ih hrest⟩⟩
      decide

theorem stripLine_eq_drop (h : ∀ c ∈ line.head?, c = ' ' ∨ c = '\t') (indent : Nat) :
    stripLine indent line = line.drop indent := by
  cases line with
  | nil =>
    rw [List.drop_nil]
    rfl
  | cons c cs =>
    rcases h c rfl with rfl | rfl
    · rfl
    · rfl

theorem stripLine_eq_self (h : ∀ c ∈ line.head?, ¬ (c = ' ' ∨ c = '\t')) (indent : Nat) :
    stripLine indent line = line := by
  unfold stripLine
  split
  · exact absurd (Or.inl rfl) (h ' ' rfl)
  · exact absurd (Or.inr rfl) (h '\t' rfl)
  · rfl

theorem stripLine_zero (line : List Char) : stripLine 0 line = line := by
  unfold stripLine
  split <;> rfl

theorem mem_of_mem_stripLine {indent : Nat} {c : Char} (h : c ∈ stripLine indent line) :
    c ∈ line := by
  unfold stripLine at h
  split at h
  · exact List.mem_of_mem_drop h
  · exact List.mem_of_mem_drop h
  · exact h

theorem normalize_of_allBlank {raw : List Char} (h : AllBlank raw) : normalize raw = [] := by
  have hlines : ∀ l ∈ lines raw, AllBlank l := fun l hl c hc => h c (mem_of_mem_lines hl hc)
  have hstrip : (lines raw).map (stripLine 0) = lines raw := List.map_id'' stripLine_zero _
  rw [normalize, stripIndentation, minimumIndent_of_allBlank hlines, Option.getD_none, hstrip,
    joinLines_lines, trim_of_allBlank h]

end Outdent.Segment
