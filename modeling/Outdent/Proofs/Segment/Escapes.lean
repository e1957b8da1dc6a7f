import Outdent.Proofs.Segment.Stripping
import Outdent.Proofs.Syntax.TemplateText
/-! # Escapes in a segment

A segment is normalised without a look at its escapes. At the start of a line that does no harm: a
blank that is stripped has a line feed or another such blank in front of it, and so no backslash. At
the end of the segment it does: a blank that a backslash escapes is trimmed like any other, and the
backslash is left over for the delimiter behind the segment. -/
namespace Outdent

open Syntax Text

theorem Text.isPlain_of_isBlank {c : Char} (h : isBlank c = true) : IsPlain c :=
  isPlain_of_class (by decide) (by decide) (by decide) h

namespace Syntax

theorem Seen.step_lineFeed (s : Seen) : s.step '\n' = .plain ∨ s.step '\n' = .delimited := by
  cases s <;> decide

/-- Two texts that a scan from the start does not tell apart, nor after trimming their ends. -/
structure ScanAlike (xs ys : List Char) : Prop where
  allBlank : AllBlank xs ↔ AllBlank ys
  whole : Seen.plain.run xs = Seen.plain.run ys
  trimmed : Seen.plain.run (trimEnd xs) = Seen.plain.run (trimEnd ys)

namespace ScanAlike

theorem blank_append {blanks : List Char} (h : AllBlank blanks) (text : List Char) :
    ScanAlike (blanks ++ text) text := by
  have hfront : ∀ cs, Seen.plain.run (blanks ++ cs) = Seen.plain.run cs := by
    intro cs
    rw [Seen.run_append, Seen.run_plain fun c hc => isPlain_of_isBlank (h c hc)]
  refine ⟨?_, hfront text, ?_⟩
  · rw [AllBlank, List.forall_mem_append]
    exact and_iff_right h
  · rw [trimEnd_append]
    by_cases htext : AllBlank text
    · rw [if_pos htext, trimEnd_of_allBlank h, trimEnd_of_allBlank htext]
    · rw [if_neg htext]
      exact hfront (trimEnd text)

theorem append_lineFeed {k l xs ys : List Char} (hline : ScanAlike k l) (h : ScanAlike xs ys) :
    ScanAlike (k ++ '\n' :: xs) (l ++ '\n' :: ys) := by
  have hbehind : ∀ {xs ys : List Char}, Seen.plain.run xs = Seen.plain.run ys →
      Seen.plain.run (k ++ '\n' :: xs) = Seen.plain.run (l ++ '\n' :: ys) := by
    intro xs ys hrun
    rw [Seen.run_append, Seen.run_append, hline.whole]
    show ((Seen.plain.run l).step '\n').run xs = ((Seen.plain.run l).step '\n').run ys
    rcases (Seen.plain.run l).step_lineFeed with hstep | hstep
    · rw [hstep, hrun]
    · rw [hstep, Seen.run_delimited, Seen.run_delimited]
  refine ⟨?_, hbehind h.whole, ?_⟩
  · simp only [AllBlank, List.forall_mem_append, List.forall_mem_cons]
    exact and_congr hline.allBlank (and_congr_right fun _ => h.allBlank)
  · rw [trimEnd_append_lineFeed, trimEnd_append_lineFeed]
    by_cases hblank : AllBlank ys
    · rw [if_pos hblank, if_pos (h.allBlank.mpr hblank)]
      exact hline.trimmed
    · rw [if_neg hblank, if_neg (mt h.allBlank.mp hblank)]
      exact hbehind h.trimmed

theorem joinLines_map {f : List Char → List Char} {ls : List (List Char)}
    (hf : ∀ l ∈ ls, ∃ blanks, AllBlank blanks ∧ l = blanks ++ f l) :
    ScanAlike (joinLines ls) (joinLines (ls.map f)) := by
  induction ls with
  | nil => exact ⟨Iff.rfl, rfl, rfl⟩
  | cons l ls ih =>
    obtain ⟨blanks, hblanks, hl⟩ := hf l List.mem_cons_self
    have hline : ScanAlike l (f l) := by
      have hfront := blank_append hblanks (f l)
      rwa [← hl] at hfront
    have hrest := ih fun l hl => hf l (List.mem_cons_of_mem _ hl)
    cases ls with
    | nil => exact hline
    | cons next ls => exact hline.append_lineFeed hrest

end ScanAlike

end Syntax

namespace Segment

/-- A segment is scanned after normalising as it is with just its end trimmed. -/
theorem run_normalize (raw : List Char) :
    Seen.plain.run (normalize raw) = Seen.plain.run (trimEnd raw) := by
  have hlines : ScanAlike (joinLines (lines raw)) (joinLines (strippedLines raw)) :=
    ScanAlike.joinLines_map fun _ hl => exists_stripLine hl
  obtain ⟨blanks, hblanks, htrim⟩ := exists_trimStart (joinLines (strippedLines raw))
  have hstart := ScanAlike.blank_append hblanks (trimStart (joinLines (strippedLines raw)))
  rw [← htrim] at hstart
  rw [joinLines_lines] at hlines
  exact (hlines.trimmed.trans hstart.trimmed).symm

/-- A blank is escaped, and there is nothing behind it but blanks. -/
def EndsInEscapedBlank (raw : List Char) : Prop :=
  ∃ front blank blanks, raw = front ++ '\\' :: blank :: blanks ∧ IsTemplateText front ∧
    AllBlank (blank :: blanks)

/-- Trimming its end leaves template text whole, or takes an escaped blank from its backslash. -/
theorem run_trimEnd {raw : List Char} (h : IsTemplateText raw) :
    Seen.plain.run (trimEnd raw) ≠ .delimited ∧
      (Seen.plain.run (trimEnd raw) = .backslash ↔ EndsInEscapedBlank raw) := by
  obtain ⟨blanks, hblanks, hraw⟩ := exists_trimEnd raw
  have hrun : Seen.plain.run raw = (Seen.plain.run (trimEnd raw)).run blanks := by
    conv => lhs; rw [hraw]
    exact Seen.run_append _ _ _
  refine ⟨?_, ?_, ?_⟩
  · intro hdelimited
    rw [hdelimited, Seen.run_delimited] at hrun
    exact h.1 hrun
  · intro hbackslash
    obtain ⟨front, htrim, hfront⟩ := run_eq_backslash_iff.mp hbackslash
    cases blanks with
    | nil =>
      rw [hbackslash] at hrun
      exact absurd hrun h.2
    | cons blank blanks =>
      refine ⟨front, blank, blanks, ?_, hfront, hblanks⟩
      rw [hraw, htrim, List.append_assoc]
      rfl
  · rintro ⟨front, blank, blanks, rfl, hfront, hblanks⟩
    have hslash : ¬ isBlank '\\' = true := by decide
    rw [List.append_cons, trimEnd_append, if_pos hblanks, trimEnd_concat front hslash]
    exact run_eq_backslash_iff.mpr ⟨front, rfl, hfront⟩

/-- Template text stays template text when it is normalised, and is read up to whatever delimits
it, exactly if it does not end in an escaped blank. If it does, a single backslash is left
over at its end. -/
theorem normalize_isTemplateText_iff {raw : List Char} (h : IsTemplateText raw) :
    (IsTemplateText (normalize raw) ↔ ¬ EndsInEscapedBlank raw) ∧
      (EndsInEscapedBlank raw → ∃ front, normalize raw = front ++ ['\\'] ∧ IsTemplateText front) ∧
      ∀ ending, ending ≠ TemplateEnd.unterminated → ∀ rest n,
        (TemplateText.read 0 (normalize raw ++ ending.delimiter ++ rest) n).ReadsUpTo
          (normalize raw) ending rest ↔ ¬ EndsInEscapedBlank raw := by
  obtain ⟨hdelimited, hbackslash⟩ := run_trimEnd h
  rw [← run_normalize] at hdelimited hbackslash
  have hvalid : IsTemplateText (normalize raw) ↔ ¬ EndsInEscapedBlank raw := by
    rw [← hbackslash]
    exact and_iff_right hdelimited
  refine ⟨hvalid, fun hends => run_eq_backslash_iff.mp (hbackslash.mpr hends), ?_⟩
  intro ending hending rest n
  constructor
  · intro hread hends
    obtain ⟨d, tail, hraw⟩ :=
      TemplateText.raw_read_backslash (hbackslash.mpr hends) hending rest n
    rw [hread.raw] at hraw
    exact absurd (List.self_eq_append_right.mp hraw) (List.cons_ne_nil d tail)
  · intro hends
    exact TemplateText.readsUpTo_read (hvalid.mpr hends) hending rest n

/-- An escaped backslash leaves the blanks behind it unescaped. -/
theorem normalize_isTemplateText_escapedBackslash :
    let raw := "\n    \\$\x7b a \\\n  \\\x60\\\\ \n".toList
    let normal := "\\$\x7b a \\\n\\\x60\\\\".toList
    IsTemplateText raw ∧ normalize raw = normal ∧ ¬ EndsInEscapedBlank raw ∧
      ∀ rest n, (TemplateText.read 0 (normal ++ ['\x60'] ++ rest) n).ReadsUpTo
        normal .closed rest := by
  intro raw normal
  have hraw : IsTemplateText raw := by decide +kernel
  have hnormal : normalize raw = normal := by decide +kernel
  have hvalid : IsTemplateText normal := by decide +kernel
  obtain ⟨hiff, -, hread⟩ := normalize_isTemplateText_iff hraw
  rw [hnormal] at hiff hread
  refine ⟨hraw, hnormal, hiff.mp hvalid, ?_⟩
  intro rest n
  exact (hread .closed (by decide) rest n).mpr (hiff.mp hvalid)

/-- A blank at the very end is trimmed although a backslash escapes it, and the backslash takes the
closing delimiter with it. -/
theorem not_isTemplateText_normalize :
    let raw := "a\\ ".toList
    IsTemplateText raw ∧ ¬ IsTemplateText (normalize raw) ∧
      (TemplateText.read 0 (raw ++ ['\x60']) 0).ending = .closed ∧
      (TemplateText.read 0 (normalize raw ++ ['\x60']) 0).ending = .unterminated := by
  decide +kernel

end Segment

end Outdent
