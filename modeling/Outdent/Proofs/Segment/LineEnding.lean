import Outdent.Proofs.Segment.Indentation
/-! # Line ends with carriage returns

A carriage return in front of a line feed is a blank at the end of its line. It changes no
indentation, it goes with a blank line that is stripped whole, and else it stays in front of its
line feed. So a segment is normalised with such line ends as it is without them. -/
namespace Outdent

namespace Text

def withReturns (cs : List Char) : List Char :=
  cs.flatMap fun c => if c = '\n' then ['\r', '\n'] else [c]

def withoutReturns : List Char → List Char
  | [] => []
  | '\r' :: '\n' :: cs => '\n' :: withoutReturns cs
  | c :: cs => c :: withoutReturns cs

/-- A text without carriage returns, and the text with one in front of some of its line feeds. -/
inductive ReturnsAdded : (plain returned : List Char) → Prop where
  | nil : ReturnsAdded [] []
  | char {c : Char} {xs ys : List Char} : c ≠ '\r' → ReturnsAdded xs ys →
      ReturnsAdded (c :: xs) (c :: ys)
  | lineEnd {xs ys : List Char} : ReturnsAdded xs ys →
      ReturnsAdded ('\n' :: xs) ('\r' :: '\n' :: ys)

/-- The lines of such texts: some of them end in a carriage return, but never the last one. -/
inductive LineReturnsAdded : (plain returned : List (List Char)) → Prop where
  | last (l : List Char) : LineReturnsAdded [l] [l]
  | same {l : List Char} {ls ms : List (List Char)} : LineReturnsAdded ls ms →
      LineReturnsAdded (l :: ls) (l :: ms)
  | returned {l : List Char} {ls ms : List (List Char)} : LineReturnsAdded ls ms →
      LineReturnsAdded (l :: ls) ((l ++ ['\r']) :: ms)

namespace ReturnsAdded

variable {xs ys us vs : List Char}

theorem of_withReturns {raw : List Char} (h : '\r' ∉ raw) : ReturnsAdded raw (withReturns raw) := by
  induction raw with
  | nil => exact .nil
  | cons c cs ih =>
    rw [List.mem_cons, not_or] at h
    obtain ⟨hc, hcs⟩ := h
    rw [withReturns, List.flatMap_cons]
    by_cases hfeed : c = '\n'
    · rw [if_pos hfeed, hfeed]
      exact .lineEnd (ih hcs)
    · rw [if_neg hfeed]
      exact .char (Ne.symm hc) (ih hcs)

theorem withoutReturns_eq (h : ReturnsAdded xs ys) : withoutReturns ys = xs := by
  induction h with
  | nil => rfl
  | char hc _ ih =>
    rw [withoutReturns, ih]
    intro _ hreturn
    exact absurd hreturn hc
  | lineEnd _ ih => rw [withoutReturns, ih]

theorem exists_lineFeed (h : ReturnsAdded xs ys) {front back : List Char}
    (hys : ys = front ++ '\r' :: back) : ∃ rest, back = '\n' :: rest := by
  induction h generalizing front with
  | nil => simp at hys
  | char hc _ ih =>
    cases front with
    | nil => exact absurd (List.cons.inj hys).1 hc
    | cons d front => exact ih (List.cons.inj hys).2
  | @lineEnd _ ys _ ih =>
    cases front with
    | nil => exact ⟨ys, (List.cons.inj hys).2.symm⟩
    | cons d front =>
      have hrest := (List.cons.inj hys).2
      cases front with
      | nil => exact absurd (List.cons.inj hrest).1 (by decide)
      | cons e front => exact ih (List.cons.inj hrest).2

theorem return_notMem (h : ReturnsAdded xs ys) : '\r' ∉ xs := by
  induction h with
  | nil => exact List.not_mem_nil
  | char hc _ ih =>
    rw [List.mem_cons, not_or]
    exact ⟨Ne.symm hc, ih⟩
  | lineEnd _ ih =>
    rw [List.mem_cons, not_or]
    exact ⟨by decide, ih⟩

theorem refl (h : '\r' ∉ xs) : ReturnsAdded xs xs := by
  induction xs with
  | nil => exact .nil
  | cons c cs ih =>
    rw [List.mem_cons, not_or] at h
    exact .char (Ne.symm h.1) (ih h.2)

theorem append (h : ReturnsAdded xs ys) (k : ReturnsAdded us vs) :
    ReturnsAdded (xs ++ us) (ys ++ vs) := by
  induction h with
  | nil => exact k
  | char hc _ ih => exact .char hc ih
  | lineEnd _ ih => exact .lineEnd ih

theorem allBlank_iff (h : ReturnsAdded xs ys) : AllBlank xs ↔ AllBlank ys := by
  induction h with
  | nil => rfl
  | char _ _ ih =>
    rw [AllBlank, AllBlank, List.forall_mem_cons, List.forall_mem_cons]
    exact and_congr_right fun _ => ih
  | lineEnd _ ih =>
    rw [AllBlank, AllBlank, List.forall_mem_cons, List.forall_mem_cons, List.forall_mem_cons]
    have hreturn : isBlank '\r' = true := by decide
    exact (and_congr_right fun _ => ih).trans (and_iff_right hreturn).symm

theorem trimStart (h : ReturnsAdded xs ys) : ReturnsAdded (trimStart xs) (trimStart ys) := by
  induction h with
  | nil => exact .nil
  | @char c xs ys hc h ih =>
    by_cases hblank : isBlank c = true
    · rw [Text.trimStart, Text.trimStart, List.dropWhile_cons_of_pos hblank,
        List.dropWhile_cons_of_pos hblank]
      exact ih
    · rw [Text.trimStart, Text.trimStart, List.dropWhile_cons_of_neg hblank,
        List.dropWhile_cons_of_neg hblank]
      exact .char hc h
  | lineEnd _ ih => exact ih

theorem trimEnd (h : ReturnsAdded xs ys) : ReturnsAdded (trimEnd xs) (trimEnd ys) := by
  induction h with
  | nil => exact .nil
  | @char c xs ys hc h ih =>
    have hxs := trimEnd_append [c] xs
    have hys := trimEnd_append [c] ys
    rw [List.singleton_append] at hxs hys
    rw [hxs, hys]
    by_cases hblank : AllBlank xs
    · rw [if_pos hblank, if_pos (h.allBlank_iff.mp hblank)]
      refine refl fun hmem => ?_
      obtain ⟨blanks, -, htrim⟩ := exists_trimEnd [c]
      have hone : '\r' ∈ [c] := htrim ▸ List.mem_append_left _ hmem
      exact hc (List.mem_singleton.mp hone).symm
    · rw [if_neg hblank, if_neg (mt h.allBlank_iff.mpr hblank)]
      exact .char hc ih
  | @lineEnd xs ys h ih =>
    have hxs := trimEnd_append_lineFeed [] xs
    have hys := trimEnd_append_lineFeed ['\r'] ys
    rw [List.nil_append] at hxs
    rw [List.singleton_append] at hys
    rw [hxs, hys]
    by_cases hblank : AllBlank xs
    · rw [if_pos hblank, if_pos (h.allBlank_iff.mp hblank)]
      exact .nil
    · rw [if_neg hblank, if_neg (mt h.allBlank_iff.mpr hblank)]
      exact .lineEnd ih

theorem lines (h : ReturnsAdded xs ys) : LineReturnsAdded (lines xs) (lines ys) := by
  induction h with
  | nil => exact .last []
  | @char c xs ys _ _ ih =>
    by_cases hfeed : c = '\n'
    · subst hfeed
      exact .same ih
    · rw [Text.lines, Text.lines, if_neg hfeed, if_neg hfeed]
      generalize Text.lines xs = ls, Text.lines ys = ms at ih
      cases ih with
      | last l => exact .last (c :: l)
      | same h => exact .same h
      | returned h => exact .returned h
  | lineEnd _ ih => exact .returned ih

end ReturnsAdded

theorem LineReturnsAdded.joinLines {ls ms : List (List Char)} (h : LineReturnsAdded ls ms)
    (hls : ∀ l ∈ ls, '\r' ∉ l) : ls ≠ [] ∧ ms ≠ [] ∧
      ReturnsAdded (joinLines ls) (joinLines ms) := by
  induction h with
  | last l => exact ⟨List.cons_ne_nil _ _, List.cons_ne_nil _ _, .refl (hls l List.mem_cons_self)⟩
  | @same l ls ms _ ih =>
    obtain ⟨hl, hrest⟩ := List.forall_mem_cons.mp hls
    obtain ⟨hne, hne', hjoin⟩ := ih hrest
    rw [joinLines_cons l hne, joinLines_cons l hne']
    exact ⟨List.cons_ne_nil _ _, List.cons_ne_nil _ _,
      (ReturnsAdded.refl hl).append (.char (by decide) hjoin)⟩
  | @returned l ls ms _ ih =>
    obtain ⟨hl, hrest⟩ := List.forall_mem_cons.mp hls
    obtain ⟨hne, hne', hjoin⟩ := ih hrest
    rw [joinLines_cons l hne, joinLines_cons _ hne', List.append_assoc]
    exact ⟨List.cons_ne_nil _ _, List.cons_ne_nil _ _,
      (ReturnsAdded.refl hl).append (.lineEnd hjoin)⟩

end Text

namespace Segment

open Text

variable {line blanks : List Char} {ls ms : List (List Char)}

theorem leadingIndent_append_of_allBlank (h : AllBlank blanks) (line : List Char) :
    leadingIndent (line ++ blanks) = leadingIndent line := by
  by_cases hline : AllBlank line
  · rw [leadingIndent_of_allBlank hline, leadingIndent_of_allBlank]
    exact List.forall_mem_append.mpr ⟨hline, h⟩
  · have hprefix := List.takeWhile_prefix isBlank (l := line)
    have hlt : (line.takeWhile isBlank).length < line.length := by
      by_contra hge
      have hwhole := hprefix.eq_of_length_le (by omega)
      exact hline (List.takeWhile_eq_self_iff.mp hwhole)
    have htake : (line ++ blanks).takeWhile isBlank = line.takeWhile isBlank := by
      rw [List.takeWhile_append, if_neg (by omega)]
    ext n
    rw [leadingIndent_eq_some_iff, leadingIndent_eq_some_iff, htake, List.length_append]
    omega

theorem stripLine_append_return (indent : Nat) (line : List Char) :
    stripLine indent (line ++ ['\r']) = stripLine indent line ++ ['\r'] ∨
      stripLine indent (line ++ ['\r']) = stripLine indent line := by
  cases line with
  | nil => exact Or.inl rfl
  | cons c cs =>
    by_cases hc : c = ' ' ∨ c = '\t'
    · rw [stripLine_eq_drop (by simpa using hc), stripLine_eq_drop (by simpa using hc)]
      by_cases hle : indent ≤ (c :: cs).length
      · exact Or.inl (List.drop_append_of_le_length hle)
      · -- the carriage return goes with a line that is shorter than what is taken from it
        right
        have hlength : (c :: cs ++ ['\r']).length = (c :: cs).length + 1 := List.length_append
        rw [List.drop_of_length_le (by omega), List.drop_of_length_le (by omega)]
    · rw [stripLine_eq_self (by simpa using hc), stripLine_eq_self (by simpa using hc)]
      exact Or.inl rfl

theorem minimumIndent_of_lineReturnsAdded (h : LineReturnsAdded ls ms) :
    minimumIndent ms = minimumIndent ls := by
  have hreturn : AllBlank ['\r'] := List.forall_mem_singleton.mpr (by decide)
  have hindents : ms.filterMap leadingIndent = ls.filterMap leadingIndent := by
    induction h with
    | last l => rfl
    | same _ ih => rw [List.filterMap_cons, List.filterMap_cons, ih]
    | returned _ ih =>
      rw [List.filterMap_cons, List.filterMap_cons, leadingIndent_append_of_allBlank hreturn, ih]
  rw [minimumIndent, minimumIndent, hindents]

theorem lineReturnsAdded_stripLine (h : LineReturnsAdded ls ms) (indent : Nat) :
    LineReturnsAdded (ls.map (stripLine indent)) (ms.map (stripLine indent)) := by
  induction h with
  | last l => exact .last _
  | same _ ih => exact .same ih
  | @returned l _ _ _ ih =>
    rw [List.map_cons, List.map_cons]
    rcases stripLine_append_return indent l with hstrip | hstrip
    · rw [hstrip]
      exact .returned ih
    · rw [hstrip]
      exact .same ih

/-- Carriage returns in front of line feeds make no difference but for those that remain. -/
theorem returnsAdded_normalize {xs ys : List Char} (h : ReturnsAdded xs ys) :
    ReturnsAdded (normalize xs) (normalize ys) := by
  have hlines := h.lines
  have hstrip := lineReturnsAdded_stripLine hlines ((minimumIndent (lines xs)).getD 0)
  have hreturn : ∀ l ∈ strippedLines xs, '\r' ∉ l := by
    refine List.forall_mem_map.mpr ?_
    intro l hl hmem
    exact h.return_notMem (mem_of_mem_lines hl (mem_of_mem_stripLine hmem))
  obtain ⟨-, -, hjoin⟩ := hstrip.joinLines hreturn
  rw [normalize_eq_trim, normalize_eq_trim, strippedLines, strippedLines,
    minimumIndent_of_lineReturnsAdded hlines]
  exact hjoin.trimStart.trimEnd

/-- A segment whose lines end in carriage returns and line feeds is normalised like one whose lines
end in line feeds alone: what is left has carriage returns in front of line feeds and nowhere else,
and is the same text without them. -/
theorem normalize_withReturns {raw : List Char} (h : '\r' ∉ raw) :
    (∀ front back, normalize (withReturns raw) = front ++ '\r' :: back →
      ∃ rest, back = '\n' :: rest) ∧
    withoutReturns (normalize (withReturns raw)) = normalize raw := by
  have hnormal := returnsAdded_normalize (ReturnsAdded.of_withReturns h)
  refine ⟨?_, hnormal.withoutReturns_eq⟩
  intro front back heq
  exact hnormal.exists_lineFeed heq

def feedBlock : List Char := "\n    a\n  \n\n      \n    \tb \n  ".toList

theorem normalize_withReturns_feedBlock : '\r' ∉ feedBlock ∧
    normalize feedBlock = "a\n\n\n  \n\tb".toList ∧
    normalize (withReturns feedBlock) = "a\r\n\n\r\n  \r\n\tb".toList ∧
    (∀ front back, normalize (withReturns feedBlock) = front ++ '\r' :: back →
      ∃ rest, back = '\n' :: rest) ∧
    withoutReturns (normalize (withReturns feedBlock)) = normalize feedBlock := by
  have hplain : '\r' ∉ feedBlock := by decide +kernel
  exact ⟨hplain, by decide +kernel, by decide +kernel, normalize_withReturns hplain⟩

end Segment

end Outdent
