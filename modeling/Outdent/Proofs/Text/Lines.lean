import Mathlib.Tactic.Common
import Outdent.Text.Lines
/-! # Splitting and joining lines

A text is split at its line feeds, so what stands in front of one and what stands behind it are
split on their own, and rows of lines that hold no line feed are what their joined text is split
into. -/
namespace Outdent.Text

theorem lineFeed_notMem_of_mem_lines {line cs : List Char} (h : line ∈ lines cs) : '\n' ∉ line := by
  induction cs generalizing line with
  | nil =>
    rw [lines, List.mem_singleton] at h
    rw [h]
    exact List.not_mem_nil
  | cons c cs ih =>
    simp only [lines] at h
    split at h
    · rcases List.mem_cons.mp h with rfl | h
      · exact List.not_mem_nil
      · exact ih h
    · next hc =>
      split at h
      · rw [List.mem_singleton.mp h, List.mem_singleton]
        exact Ne.symm hc
      · next l ls hls =>
        rcases List.mem_cons.mp h with rfl | h
        · have hl : '\n' ∉ l := ih (hls ▸ List.mem_cons_self)
          rw [List.mem_cons, not_or]
          exact ⟨Ne.symm hc, hl⟩
        · exact ih (hls ▸ List.mem_cons_of_mem l h)

theorem lines_cons_of_ne {c : Char} {cs l : List Char} {ls : List (List Char)} (hc : c ≠ '\n')
    (h : lines cs = l :: ls) : lines (c :: cs) = (c :: l) :: ls := by
  simp only [lines, if_neg hc, h]

theorem exists_lines (cs : List Char) : ∃ l ls, lines cs = l :: ls :=
  List.exists_cons_of_ne_nil (lines_ne_nil cs)

theorem joinLines_cons (l : List Char) {ls : List (List Char)} (h : ls ≠ []) :
    joinLines (l :: ls) = l ++ '\n' :: joinLines ls := by
  cases ls with
  | nil => exact absurd rfl h
  | cons l' ls => rfl

theorem mem_joinLines {ls : List (List Char)} {line : List Char} {c : Char} (h : line ∈ ls)
    (hc : c ∈ line) : c ∈ joinLines ls := by
  induction ls with
  | nil => exact absurd h List.not_mem_nil
  | cons l ls ih =>
    by_cases hls : ls = []
    · subst hls
      rw [List.mem_singleton] at h
      rw [joinLines, ← h]
      exact hc
    · rw [joinLines_cons l hls, List.mem_append, List.mem_cons]
      rcases List.mem_cons.mp h with rfl | h
      · exact Or.inl hc
      · exact Or.inr (Or.inr (ih h))

theorem mem_of_mem_lines {line cs : List Char} {c : Char} (h : line ∈ lines cs) (hc : c ∈ line) :
    c ∈ cs := by
  have hmem := mem_joinLines h hc
  rwa [joinLines_lines] at hmem

theorem lines_append_lineFeed (xs ys : List Char) :
    lines (xs ++ '\n' :: ys) = lines xs ++ lines ys := by
  induction xs with
  | nil => simp [lines]
  | cons c xs ih =>
    simp only [List.cons_append, lines, ih]
    split
    · rfl
    · cases hxs : lines xs with
      | nil => exact absurd hxs (lines_ne_nil xs)
      | cons l ls => rfl

theorem lines_of_notMem {line : List Char} (h : '\n' ∉ line) : lines line = [line] := by
  induction line with
  | nil => rfl
  | cons c cs ih =>
    rw [List.mem_cons, not_or] at h
    obtain ⟨hc, hcs⟩ := h
    simp only [lines, ih hcs, if_neg (Ne.symm hc)]

/-- Lines that hold no line feed are read back from their joined text. -/
theorem lines_joinLines {ls : List (List Char)} (hne : ls ≠ []) (h : ∀ l ∈ ls, '\n' ∉ l) :
    lines (joinLines ls) = ls := by
  induction ls with
  | nil => exact absurd rfl hne
  | cons l ls ih =>
    obtain ⟨hl, hrest⟩ := List.forall_mem_cons.mp h
    by_cases hls : ls = []
    · subst hls
      exact lines_of_notMem hl
    · rw [joinLines_cons l hls, lines_append_lineFeed, lines_of_notMem hl, ih hls hrest]
      rfl

theorem joinLines_append {ls ms : List (List Char)} (hls : ls ≠ []) (hms : ms ≠ []) :
    joinLines (ls ++ ms) = joinLines ls ++ '\n' :: joinLines ms := by
  induction ls with
  | nil => exact absurd rfl hls
  | cons l ls ih =>
    by_cases hrest : ls = []
    · subst hrest
      exact joinLines_cons l hms
    · have happend : ls ++ ms ≠ [] := by simp [hrest]
      rw [List.cons_append, joinLines_cons l happend, ih hrest, joinLines_cons l hrest,
        List.append_assoc]
      rfl

theorem joinLines_between {ls : List (List Char)} (hls : ls ≠ []) (last : List Char) :
    joinLines ([[]] ++ (ls ++ [last])) = '\n' :: (joinLines ls ++ '\n' :: last) := by
  have hrest : ls ++ [last] ≠ [] := by simp
  rw [joinLines_append (List.cons_ne_nil [] []) hrest,
    joinLines_append hls (List.cons_ne_nil last [])]
  rfl

end Outdent.Text
