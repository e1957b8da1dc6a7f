import Mathlib.Data.List.TakeWhile
import Outdent.Segment
/-! # What a segment loses

Normalising takes nothing but blank characters away: those in front of the text of a line, up to the
common indentation, and those at the two ends of the segment. -/
namespace Outdent

namespace Text

def AllBlank (cs : List Char) : Prop := ∀ c ∈ cs, isBlank c = true

instance (cs : List Char) : Decidable (AllBlank cs) := inferInstanceAs (Decidable (∀ c ∈ cs, _))

theorem exists_trimStart (cs : List Char) :
    ∃ blanks, AllBlank blanks ∧ cs = blanks ++ trimStart cs :=
  ⟨cs.takeWhile isBlank, fun _ hc => List.mem_takeWhile_imp hc,
    List.takeWhile_append_dropWhile.symm⟩

theorem trimEnd_append (xs ys : List Char) :
    trimEnd (xs ++ ys) = if AllBlank ys then trimEnd xs else xs ++ trimEnd ys := by
  have hblank : ys.reverse.dropWhile isBlank = [] ↔ AllBlank ys := by
    simp [List.dropWhile_eq_nil_iff, AllBlank]
  rw [trimEnd, List.reverse_append, List.dropWhile_append]
  by_cases h : AllBlank ys
  · rw [if_pos (List.isEmpty_iff.mpr (hblank.mpr h)), if_pos h]
    rfl
  · rw [if_neg fun hnil => h (hblank.mp (List.isEmpty_iff.mp hnil)), if_neg h,
      List.reverse_append, List.reverse_reverse]
    rfl

theorem trimEnd_of_allBlank {cs : List Char} (h : AllBlank cs) : trimEnd cs = [] := by
  have happend := trimEnd_append [] cs
  rwa [if_pos h] at happend

theorem trimEnd_concat (cs : List Char) {c : Char} (h : ¬ isBlank c = true) :
    trimEnd (cs ++ [c]) = cs ++ [c] := by
  rw [trimEnd, List.reverse_concat, List.dropWhile_cons_of_neg h, List.reverse_cons,
    List.reverse_reverse]

theorem exists_trimEnd (cs : List Char) :
    ∃ blanks, AllBlank blanks ∧ cs = trimEnd cs ++ blanks := by
  refine ⟨(cs.reverse.takeWhile isBlank).reverse, ?_, ?_⟩
  · intro c hc
    exact List.mem_takeWhile_imp (List.mem_reverse.mp hc)
  · rw [trimEnd, ← List.reverse_append, List.takeWhile_append_dropWhile, List.reverse_reverse]

theorem trimEnd_append_lineFeed (line text : List Char) :
    trimEnd (line ++ '\n' :: text) =
      if AllBlank text then trimEnd line else line ++ '\n' :: trimEnd text := by
  have hfeed : AllBlank ('\n' :: text) ↔ AllBlank text := by
    rw [AllBlank, List.forall_mem_cons]
    exact and_iff_right (by decide)
  rw [trimEnd_append]
  by_cases h : AllBlank text
  · rw [if_pos h, if_pos (hfeed.mpr h)]
  · have hrest := trimEnd_append ['\n'] text
    rw [if_neg h] at hrest
    rw [if_neg h, if_neg (mt hfeed.mp h)]
    exact congrArg (line ++ ·) hrest

theorem trimStart_of_allBlank_append {front : List Char} (h : AllBlank front) (cs : List Char) :
    trimStart (front ++ cs) = trimStart cs := List.dropWhile_append_of_pos h

theorem trimStart_eq_self {cs : List Char} (h : ∀ c ∈ cs.head?, ¬ isBlank c = true) :
    trimStart cs = cs := by
  cases cs with
  | nil => rfl
  | cons c cs => exact List.dropWhile_cons_of_neg (h c rfl)

theorem trimEnd_eq_self {cs : List Char} (h : ∀ c ∈ cs.getLast?, ¬ isBlank c = true) :
    trimEnd cs = cs := by
  rcases List.eq_nil_or_concat cs with rfl | ⟨front, c, rfl⟩
  · rfl
  · rw [List.concat_eq_append] at h ⊢
    exact trimEnd_concat front (h c List.getLast?_concat)

theorem trim_of_allBlank {cs : List Char} (h : AllBlank cs) : trim cs = [] := by
  have hnothing : trimStart cs = [] := List.dropWhile_eq_nil_iff.mpr h
  rw [trim, hnothing]
  rfl

theorem trim_around {front text back : List Char} (hfront : AllBlank front)
    (hback : AllBlank back) (hstart : ∀ c ∈ text.head?, ¬ isBlank c = true)
    (hstop : ∀ c ∈ text.getLast?, ¬ isBlank c = true) : trim (front ++ (text ++ back)) = text := by
  cases text with
  | nil =>
    apply trim_of_allBlank
    rw [AllBlank, List.forall_mem_append]
    exact ⟨hfront, hback⟩
  | cons c cs =>
    have hkept : trimStart (c :: cs ++ back) = c :: cs ++ back := trimStart_eq_self hstart
    rw [trim, trimStart_of_allBlank_append hfront, hkept, trimEnd_append, if_pos hback,
      trimEnd_eq_self hstop]

theorem trim_sublist (cs : List Char) : (trim cs).Sublist cs := by
  have hend : (trimEnd (trimStart cs)).Sublist (trimStart cs).reverse.reverse :=
    List.Sublist.reverse (List.dropWhile_sublist _)
  rw [List.reverse_reverse] at hend
  exact hend.trans (List.dropWhile_sublist _)

theorem joinLines_map_sublist {f : List Char → List Char} (hf : ∀ l, (f l).Sublist l)
    (ls : List (List Char)) : (joinLines (ls.map f)).Sublist (joinLines ls) := by
  induction ls with
  | nil => exact List.Sublist.refl _
  | cons l ls ih =>
    cases ls with
    | nil => exact hf l
    | cons next ls => exact (hf l).append (ih.cons_cons '\n')

end Text

namespace Segment

open Text

theorem allBlank_take {line : List Char} {width indent : Nat}
    (hwidth : (line.takeWhile isBlank).length = width) (hle : indent ≤ width) :
    AllBlank (line.take indent) := by
  intro c hc
  rw [← List.takeWhile_append_dropWhile (p := isBlank) (l := line),
    List.take_append_of_le_length (by omega)] at hc
  exact List.mem_takeWhile_imp (List.mem_of_mem_take hc)

/-- A line that starts with a blank either has an indentation or is blank throughout. -/
theorem allBlank_or_leadingIndent {c : Char} {cs : List Char} (hc : isBlank c = true) :
    AllBlank (c :: cs) ∨
      leadingIndent (c :: cs) = some ((c :: cs).takeWhile isBlank).length := by
  have hsome : ((c :: cs).takeWhile isBlank).length = (cs.takeWhile isBlank).length + 1 := by
    rw [List.takeWhile_cons_of_pos hc, List.length_cons]
  by_cases hlt : (cs.takeWhile isBlank).length + 1 < (c :: cs).length
  · right
    simp only [leadingIndent, hsome, if_pos hlt]
  · left
    have hprefix := List.takeWhile_prefix isBlank (l := c :: cs)
    have hwhole : (c :: cs).takeWhile isBlank = c :: cs := hprefix.eq_of_length_le (by omega)
    exact List.takeWhile_eq_self_iff.mp hwhole

theorem allBlank_take_minimumIndent {ls : List (List Char)} {c : Char} {cs : List Char}
    (hline : c :: cs ∈ ls) (hc : isBlank c = true) :
    AllBlank ((c :: cs).take ((minimumIndent ls).getD 0)) := by
  rcases allBlank_or_leadingIndent hc with hblank | hindent
  · intro d hd
    exact hblank d (List.mem_of_mem_take hd)
  · have hmem := List.mem_filterMap.mpr ⟨_, hline, hindent⟩
    exact allBlank_take rfl (List.min?_getD_le_of_mem hmem)

theorem exists_stripLine {ls : List (List Char)} {line : List Char} (hline : line ∈ ls) :
    ∃ blanks, AllBlank blanks ∧
      line = blanks ++ stripLine ((minimumIndent ls).getD 0) line := by
  unfold stripLine
  split
  · exact ⟨_, allBlank_take_minimumIndent hline (by decide), (List.take_append_drop _ _).symm⟩
  · exact ⟨_, allBlank_take_minimumIndent hline (by decide), (List.take_append_drop _ _).symm⟩
  · exact ⟨[], by simp [AllBlank], rfl⟩

def strippedLines (raw : List Char) : List (List Char) :=
  (lines raw).map (stripLine ((minimumIndent (lines raw)).getD 0))

theorem normalize_eq_trim (raw : List Char) :
    normalize raw = trim (joinLines (strippedLines raw)) := rfl

theorem stripLine_sublist (indent : Nat) (line : List Char) :
    (stripLine indent line).Sublist line := by
  unfold stripLine
  split
  · exact List.drop_sublist _ _
  · exact List.drop_sublist _ _
  · exact List.Sublist.refl _

theorem normalize_sublist (raw : List Char) : (normalize raw).Sublist raw := by
  have hlines := Text.joinLines_map_sublist
    (stripLine_sublist ((minimumIndent (Text.lines raw)).getD 0)) (Text.lines raw)
  rw [Text.joinLines_lines] at hlines
  exact (Text.trim_sublist _).trans hlines

end Segment

end Outdent
