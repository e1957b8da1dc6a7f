import Outdent.Proofs.Segment.Stripping
import Outdent.Proofs.Text.Lines
import Outdent.Proofs.Text.Rows
/-! # What a segment keeps

Normalising takes blanks away and nothing else: from the front of a line, and from the two ends of
the whole. So the lines of the result stand against lines of the segment, one against one, and each
has the same text between the same two characters that are not blank. -/
namespace Outdent

namespace Text

variable {line kept text front back : List Char}

def IsTrimmed (cs : List Char) : Prop :=
  (∀ c ∈ cs.head?, ¬ isBlank c = true) ∧ ∀ c ∈ cs.getLast?, ¬ isBlank c = true

instance (cs : List Char) : Decidable (IsTrimmed cs) :=
  @instDecidableAnd _ _ (Option.decidableForallMem cs.head?)
    (Option.decidableForallMem cs.getLast?)

/-- A line without some of the blanks at its ends. -/
def LosesBlanks (line kept : List Char) : Prop :=
  ∃ front back, AllBlank front ∧ AllBlank back ∧ line = front ++ (kept ++ back)

def LosesFront (line kept : List Char) : Prop := ∃ front, AllBlank front ∧ line = front ++ kept

/-- The text of a line from its first character that is not blank to its last. -/
def IsContent (text line : List Char) : Prop := IsTrimmed text ∧ LosesBlanks line text

def withoutBlanks (cs : List Char) : List Char := cs.filter fun c => !isBlank c || c == '\n'

def trimFeeds (cs : List Char) : List Char :=
  ((cs.dropWhile (· == '\n')).reverse.dropWhile (· == '\n')).reverse

theorem not_isBlank_of_head_dropWhile {cs : List Char} {c : Char}
    (h : (cs.dropWhile isBlank).head? = some c) : ¬ isBlank c = true := by
  have hnot := List.head?_dropWhile_not isBlank cs
  rw [h] at hnot
  exact Bool.eq_false_iff.mp hnot

theorem isTrimmed_trim (cs : List Char) : IsTrimmed (trim cs) := by
  constructor
  · intro c hc
    obtain ⟨tail, htail⟩ := List.head?_eq_some_iff.mp hc
    obtain ⟨blanks, -, hstart⟩ := exists_trimEnd (trimStart cs)
    have hhead : (trimStart cs).head? = some c := by
      rw [hstart, show trimEnd (trimStart cs) = c :: tail from htail]
      rfl
    exact not_isBlank_of_head_dropWhile hhead
  · intro c hc
    rw [trim, trimEnd, List.getLast?_reverse] at hc
    exact not_isBlank_of_head_dropWhile hc

theorem isContent_trim (cs : List Char) : IsContent (trim cs) cs := by
  obtain ⟨front, hfront, hcs⟩ := exists_trimStart cs
  obtain ⟨back, hback, hstart⟩ := exists_trimEnd (trimStart cs)
  refine ⟨isTrimmed_trim cs, front, back, hfront, hback, ?_⟩
  rw [trim, ← hstart]
  exact hcs

theorem IsContent.eq_trim (h : IsContent text line) : text = trim line := by
  obtain ⟨⟨hstart, hstop⟩, front, back, hfront, hback, rfl⟩ := h
  exact (trim_around hfront hback hstart hstop).symm

namespace LosesBlanks

theorem refl (line : List Char) : LosesBlanks line line :=
  ⟨[], [], by simp [AllBlank], by simp [AllBlank], by simp⟩

theorem trans {row : List Char} (h : LosesBlanks line row) (k : LosesBlanks row kept) :
    LosesBlanks line kept := by
  obtain ⟨front, back, hfront, hback, rfl⟩ := h
  obtain ⟨front', back', hfront', hback', rfl⟩ := k
  refine ⟨front ++ front', back' ++ back, List.forall_mem_append.mpr ⟨hfront, hfront'⟩,
    List.forall_mem_append.mpr ⟨hback', hback⟩, ?_⟩
  simp only [List.append_assoc]

theorem allBlank (h : LosesBlanks line kept) (hkept : AllBlank kept) : AllBlank line := by
  obtain ⟨front, back, hfront, hback, rfl⟩ := h
  exact List.forall_mem_append.mpr ⟨hfront, List.forall_mem_append.mpr ⟨hkept, hback⟩⟩

theorem isContent (h : LosesBlanks line kept) (htext : IsContent text line) :
    IsContent text kept := by
  obtain ⟨htrimmed, hkept⟩ := isContent_trim kept
  have hsame : IsContent (trim kept) line := ⟨htrimmed, h.trans hkept⟩
  rw [htext.eq_trim, ← hsame.eq_trim]
  exact isContent_trim kept

end LosesBlanks

theorem LosesFront.losesBlanks (h : LosesFront line kept) : LosesBlanks line kept := by
  obtain ⟨front, hfront, rfl⟩ := h
  exact ⟨front, [], hfront, by simp [AllBlank], by simp⟩

theorem exists_lines_blank_append (h : AllBlank front) (cs : List Char) :
    ∃ above rows, lines (front ++ cs) = above ++ rows ∧ (∀ l ∈ above, AllBlank l) ∧
      List.Forall₂ LosesBlanks rows (lines cs) := by
  induction front with
  | nil =>
    exact ⟨[], lines cs, rfl, by simp, List.forall₂_same.mpr fun l _ => .refl l⟩
  | cons c front ih =>
    obtain ⟨hc, hfront⟩ := List.forall_mem_cons.mp h
    obtain ⟨above, rows, hlines, habove, hrows⟩ := ih hfront
    by_cases hfeed : c = '\n'
    · refine ⟨[] :: above, rows, ?_, List.forall_mem_cons.mpr ⟨by simp [AllBlank], habove⟩, hrows⟩
      rw [List.cons_append, lines, if_pos hfeed, hlines]
      rfl
    · cases above with
      | nil =>
        obtain ⟨k, ks, hkept⟩ := exists_lines cs
        rw [hkept] at hrows
        rw [hkept]
        cases hrows with
        | @cons row _ rows _ hrow hrest =>
          refine ⟨[], (c :: row) :: rows, lines_cons_of_ne hfeed hlines, by simp, ?_⟩
          have hone : LosesBlanks (c :: row) row :=
            LosesFront.losesBlanks ⟨[c], List.forall_mem_singleton.mpr hc, rfl⟩
          exact .cons (hone.trans hrow) hrest
      | cons a above =>
        obtain ⟨ha, habove⟩ := List.forall_mem_cons.mp habove
        refine ⟨(c :: a) :: above, rows, lines_cons_of_ne hfeed hlines, ?_, hrows⟩
        exact List.forall_mem_cons.mpr ⟨List.forall_mem_cons.mpr ⟨hc, ha⟩, habove⟩

theorem exists_lines_append_blank (h : AllBlank back) (cs : List Char) :
    ∃ rows below, lines (cs ++ back) = rows ++ below ∧ (∀ l ∈ below, AllBlank l) ∧
      List.Forall₂ (fun row l => ∃ blanks, AllBlank blanks ∧ row = l ++ blanks) rows
        (lines cs) := by
  induction cs with
  | nil =>
    obtain ⟨l, ls, hlines⟩ := exists_lines back
    have hblank : ∀ k ∈ l :: ls, AllBlank k :=
      fun k hk c hc => h c (mem_of_mem_lines (hlines ▸ hk) hc)
    obtain ⟨hl, hls⟩ := List.forall_mem_cons.mp hblank
    exact ⟨[l], ls, hlines, hls, .cons ⟨l, hl, rfl⟩ .nil⟩
  | cons c cs ih =>
    obtain ⟨rows, below, hlines, hbelow, hrows⟩ := ih
    by_cases hfeed : c = '\n'
    · refine ⟨[] :: rows, below, ?_, hbelow, ?_⟩
      · rw [List.cons_append, lines, if_pos hfeed, hlines]
        rfl
      · rw [lines, if_pos hfeed]
        exact .cons ⟨[], by simp [AllBlank], rfl⟩ hrows
    · obtain ⟨k, ks, hkept⟩ := exists_lines cs
      rw [hkept] at hrows
      rw [lines_cons_of_ne hfeed hkept]
      cases hrows with
      | @cons row _ rows _ hrow hrest =>
        obtain ⟨blanks, hblanks, rfl⟩ := hrow
        exact ⟨(c :: (k ++ blanks)) :: rows, below, lines_cons_of_ne hfeed hlines, hbelow,
          .cons ⟨blanks, hblanks, rfl⟩ hrest⟩

/-- Rows of lines, of which the second is the first without some of the blanks at the ends of lines
and without blank lines at its own two ends. -/
def LosesBlankLines (ls kept : List (List Char)) : Prop :=
  ∃ above middle below, ls = above ++ (middle ++ below) ∧ (∀ l ∈ above, AllBlank l) ∧
    (∀ l ∈ below, AllBlank l) ∧ List.Forall₂ LosesBlanks middle kept

theorem allBlank_of_forall₂ {ls rows : List (List Char)} (h : List.Forall₂ LosesBlanks ls rows)
    (hrows : ∀ row ∈ rows, AllBlank row) : ∀ l ∈ ls, AllBlank l := by
  intro l hl
  obtain ⟨row, hrow, hlose⟩ := exists_right_of_forall₂ h hl
  exact hlose.allBlank (hrows row hrow)

theorem losesBlankLines_trim (cs : List Char) : LosesBlankLines (lines cs) (lines (trim cs)) := by
  obtain ⟨-, front, back, hfront, hback, hcs⟩ := isContent_trim cs
  obtain ⟨above, rows, habove, haboveBlank, hrows⟩ :=
    exists_lines_blank_append hfront (trim cs ++ back)
  obtain ⟨inner, below, hbelow, hbelowBlank, hinner⟩ := exists_lines_append_blank hback (trim cs)
  rw [hbelow] at hrows
  obtain ⟨middle, rest, rfl, hmiddle, hrest⟩ := exists_append_of_forall₂ hrows
  rw [← hcs] at habove
  refine ⟨above, middle, rest, habove, haboveBlank, allBlank_of_forall₂ hrest hbelowBlank,
    forall₂_comp ?_ hmiddle hinner⟩
  rintro line row kept hline ⟨blanks, hblanks, rfl⟩
  exact hline.trans ⟨[], blanks, by simp [AllBlank], hblanks, rfl⟩

theorem LosesBlankLines.of_forall₂ {ls rows kept : List (List Char)}
    (h : List.Forall₂ LosesBlanks ls rows) (k : LosesBlankLines rows kept) :
    LosesBlankLines ls kept := by
  obtain ⟨above, middle, below, rfl, habove, hbelow, hmiddle⟩ := k
  obtain ⟨aboveLines, rest, rfl, haboveLines, hrest⟩ := exists_append_of_forall₂ h
  obtain ⟨middleLines, belowLines, rfl, hmiddleLines, hbelowLines⟩ :=
    exists_append_of_forall₂ hrest
  exact ⟨aboveLines, middleLines, belowLines, rfl, allBlank_of_forall₂ haboveLines habove,
    allBlank_of_forall₂ hbelowLines hbelow,
    forall₂_comp (fun _ _ _ hline hrow => hline.trans hrow) hmiddleLines hmiddle⟩

theorem withoutBlanks_append (xs ys : List Char) :
    withoutBlanks (xs ++ ys) = withoutBlanks xs ++ withoutBlanks ys := List.filter_append ..

theorem withoutBlanks_lineFeed (cs : List Char) :
    withoutBlanks ('\n' :: cs) = '\n' :: withoutBlanks cs :=
  List.filter_cons_of_pos (by decide)

theorem withoutBlanks_of_allBlank (h : AllBlank front) (hfeed : '\n' ∉ front) :
    withoutBlanks front = [] := by
  refine List.filter_eq_nil_iff.mpr fun c hc hkept => ?_
  rw [h c hc, Bool.not_true, Bool.false_or] at hkept
  exact hfeed (beq_iff_eq.mp hkept ▸ hc)

theorem withoutBlanks_joinLines {ls rows : List (List Char)}
    (h : List.Forall₂ LosesFront ls rows) (hfeed : ∀ l ∈ ls, '\n' ∉ l) :
    withoutBlanks (joinLines ls) = withoutBlanks (joinLines rows) := by
  induction h with
  | nil => rfl
  | @cons line row ls rows hline hrest ih =>
    obtain ⟨hlineFeed, hrestFeed⟩ := List.forall_mem_cons.mp hfeed
    obtain ⟨blanks, hblanks, rfl⟩ := hline
    have hnone : withoutBlanks blanks = [] :=
      withoutBlanks_of_allBlank hblanks fun hmem => hlineFeed (List.mem_append_left _ hmem)
    cases hrest with
    | nil => rw [joinLines, joinLines, withoutBlanks_append, hnone, List.nil_append]
    | cons _ _ =>
      rw [joinLines_cons _ (List.cons_ne_nil _ _), joinLines_cons _ (List.cons_ne_nil _ _),
        List.append_assoc, withoutBlanks_append, hnone, List.nil_append, withoutBlanks_append,
        withoutBlanks_append row, withoutBlanks_lineFeed, withoutBlanks_lineFeed, ih hrestFeed]

theorem withoutBlanks_trim (cs : List Char) :
    withoutBlanks (trim cs) = trimFeeds (withoutBlanks cs) := by
  have hblank : (fun c => !(!isBlank c || c == '\n') || c == '\n') = isBlank := by
    funext c
    by_cases hc : c = '\n'
    · subst hc
      decide
    · rw [beq_false_of_ne hc, Bool.or_false, Bool.or_false, Bool.not_not]
  simp only [trimFeeds, withoutBlanks]
  rw [List.dropWhile_filter, ← List.filter_reverse, List.dropWhile_filter, ← List.filter_reverse,
    hblank]
  rfl

end Text

namespace Segment

open Text

structure KeepsContent (raw result : List Char) : Prop where
  trimmed : IsTrimmed result
  /-- The characters that are not blank, and the line feeds between them, stay as they are. -/
  characters : withoutBlanks result = trimFeeds (withoutBlanks raw)
  /-- But for blank lines at the ends, the lines stand against each other with their contents. -/
  contents : ∃ above middle below, lines raw = above ++ (middle ++ below) ∧
    (∀ l ∈ above, AllBlank l) ∧ (∀ l ∈ below, AllBlank l) ∧
    List.Forall₂ (fun line kept => ∀ text, IsContent text line → IsContent text kept) middle
      (lines result)
  /-- Nothing is dropped but blanks at the front of a line and at the two ends of the whole. -/
  dropped : ∃ rows front back, List.Forall₂ LosesFront (lines raw) rows ∧ AllBlank front ∧
    AllBlank back ∧ joinLines rows = front ++ (result ++ back)

theorem forall₂_strippedLines (raw : List Char) :
    List.Forall₂ LosesFront (lines raw) (strippedLines raw) :=
  List.forall₂_map_right_iff.mpr (List.forall₂_same.mpr fun _ hl => exists_stripLine hl)

theorem lines_joinLines_strippedLines (raw : List Char) :
    lines (joinLines (strippedLines raw)) = strippedLines raw := by
  apply lines_joinLines
  · exact mt List.map_eq_nil_iff.mp (lines_ne_nil raw)
  · intro row hrow hfeed
    obtain ⟨line, hline, blanks, -, rfl⟩ := exists_left_of_forall₂ (forall₂_strippedLines raw) hrow
    exact lineFeed_notMem_of_mem_lines hline (List.mem_append_right _ hfeed)

theorem losesBlankLines_normalize (raw : List Char) :
    LosesBlankLines (lines raw) (lines (normalize raw)) := by
  have htrim := losesBlankLines_trim (joinLines (strippedLines raw))
  rw [lines_joinLines_strippedLines] at htrim
  exact htrim.of_forall₂ ((forall₂_strippedLines raw).imp fun _ _ hline => hline.losesBlanks)

theorem withoutBlanks_normalize (raw : List Char) :
    withoutBlanks (normalize raw) = trimFeeds (withoutBlanks raw) := by
  have hjoin := withoutBlanks_joinLines (forall₂_strippedLines raw)
    fun _ hl => lineFeed_notMem_of_mem_lines hl
  rw [joinLines_lines] at hjoin
  rw [normalize_eq_trim, withoutBlanks_trim, hjoin]

/-- Normalising never loses content: whatever the segment, nothing of it is dropped but blanks at
the front of its lines and at its two ends. -/
theorem keepsContent_normalize (raw : List Char) : KeepsContent raw (normalize raw) := by
  obtain ⟨htrimmed, front, back, hfront, hback, heq⟩ :=
    isContent_trim (joinLines (strippedLines raw))
  constructor
  · exact htrimmed
  · exact withoutBlanks_normalize raw
  · obtain ⟨above, middle, below, hlines, habove, hbelow, hmiddle⟩ :=
      losesBlankLines_normalize raw
    refine ⟨above, middle, below, hlines, habove, hbelow, hmiddle.imp ?_⟩
    intro line kept hkept text htext
    exact hkept.isContent htext
  · exact ⟨strippedLines raw, front, back, forall₂_strippedLines raw, hfront, hback, heq⟩

end Segment

end Outdent
