/-! # Lines of a text

A line ends at a line feed and nowhere else, so a carriage return stays in its line. Splitting
and joining are inverse to each other.
-/
namespace Outdent.Text

/-- The lines between the line feeds; a text with `n` line feeds has `n + 1` lines. -/
def lines : List Char → List (List Char)
  | [] => [[]]
  | c :: cs =>
    if c = '\n' then [] :: lines cs
    else match lines cs with
      | [] => [[c]]
      | l :: ls => (c :: l) :: ls

def joinLines : List (List Char) → List Char
  | [] => []
  | [l] => l
  | l :: ls => l ++ '\n' :: joinLines ls

theorem lines_ne_nil (cs : List Char) : lines cs ≠ [] := by
  cases cs with
  | nil => simp [lines]
  | cons c cs =>
    simp only [lines]
    split
    · simp
    · split <;> simp

@[simp] theorem joinLines_lines (cs : List Char) : joinLines (lines cs) = cs := by
  induction cs with
  | nil => rfl
  | cons c cs ih =>
    simp only [lines]
    split
    · next h =>
      cases hl : lines cs with
      | nil => exact absurd hl (lines_ne_nil cs)
      | cons l ls => rw [hl] at ih; simp [joinLines, ih, h]
    · cases hl : lines cs with
      | nil => exact absurd hl (lines_ne_nil cs)
      | cons l ls =>
        rw [hl] at ih
        cases ls with
        | nil => simpa [joinLines] using ih
        | cons l' ls => simpa [joinLines] using ih

end Outdent.Text
