import Outdent.Proofs.Segment.Indentation
import Outdent.Proofs.Text.Rows
/-! # Margins

A text that is moved behind a margin, as it stands in a template that is indented, comes back when
the segment is normalised. The margin is the least indentation: the first line of the text has no
other, and no line has less. -/
namespace Outdent

namespace Segment

open Text

variable {width : Nat} {line indented margin text : List Char} {ls : List (List Char)}

/-- Spaces and tabs, which normalising takes from the front of a line. -/
def IsMargin (cs : List Char) : Prop := ∀ c ∈ cs, c = ' ' ∨ c = '\t'

instance (cs : List Char) : Decidable (IsMargin cs) := List.decidableBAll _ cs

theorem IsMargin.allBlank (h : IsMargin margin) : AllBlank margin := by
  intro c hc
  rcases h c hc with rfl | rfl
  · decide
  · decide

theorem IsMargin.lineFeed_notMem (h : IsMargin margin) : '\n' ∉ margin := by
  intro hmem
  rcases h _ hmem with hspace | htab
  · exact absurd hspace (by decide)
  · exact absurd htab (by decide)

theorem stripLine_margin_append (h : IsMargin margin) (hne : margin ≠ []) (indent : Nat)
    (line : List Char) : stripLine indent (margin ++ line) = (margin ++ line).drop indent := by
  apply stripLine_eq_drop
  cases margin with
  | nil => exact absurd rfl hne
  | cons c cs =>
    intro d hd
    obtain rfl := Option.some.inj hd
    exact h _ List.mem_cons_self

/-- A line and the line behind a margin of a width. An empty line may stand without one. -/
inductive Indented (width : Nat) : (line indented : List Char) → Prop where
  | behind {margin line : List Char} : IsMargin margin → margin.length = width →
      Indented width line (margin ++ line)
  | empty : Indented width [] []

theorem indented_iff : Indented width line indented ↔
    (IsMargin (indented.take width) ∧ width ≤ indented.length ∧ indented.drop width = line) ∨
      line = [] ∧ indented = [] := by
  constructor
  · rintro (⟨hmargin, rfl⟩ | _)
    · left
      simp [hmargin]
    · exact Or.inr ⟨rfl, rfl⟩
  · rintro (⟨hmargin, hwidth, rfl⟩ | ⟨rfl, rfl⟩)
    · have hbehind : Indented width (indented.drop width)
          (indented.take width ++ indented.drop width) :=
        .behind hmargin (List.length_take_of_le hwidth)
      rwa [List.take_append_drop] at hbehind
    · exact .empty

instance (width : Nat) (line indented : List Char) : Decidable (Indented width line indented) :=
  decidable_of_iff' _ indented_iff

namespace Indented

theorem lineFeed_notMem (h : Indented width line indented) (hline : '\n' ∉ line) :
    '\n' ∉ indented := by
  cases h with
  | behind hmargin _ =>
    rw [List.mem_append, not_or]
    exact ⟨hmargin.lineFeed_notMem, hline⟩
  | empty => exact hline

theorem allBlank (h : Indented width line indented) (hline : AllBlank line) :
    AllBlank indented := by
  cases h with
  | behind hmargin _ => exact List.forall_mem_append.mpr ⟨hmargin.allBlank, hline⟩
  | empty => exact hline

theorem stripLine_eq (h : Indented width line indented) (hwidth : 0 < width) :
    stripLine width indented = line := by
  cases h with
  | @behind margin _ hmargin hlength =>
    have hne : margin ≠ [] := List.ne_nil_of_length_pos (hlength ▸ hwidth)
    rw [stripLine_margin_append hmargin hne, ← hlength, List.drop_left]
  | empty => rfl

theorem width_le_leadingIndent (h : Indented width line indented) {n : Nat}
    (hn : leadingIndent indented = some n) : width ≤ n := by
  obtain ⟨hpos, hlt, hcount⟩ := leadingIndent_eq_some_iff.mp hn
  cases h with
  | behind hmargin hlength =>
    rw [List.takeWhile_append_of_pos hmargin.allBlank, List.length_append] at hcount
    omega
  | empty => exact absurd hlt (Nat.not_lt_zero n)

theorem leadingIndent_eq {c : Char} {cs : List Char} (h : Indented width (c :: cs) indented)
    (hwidth : 0 < width) (hc : ¬ isBlank c = true) : leadingIndent indented = some width := by
  cases h with
  | behind hmargin hlength =>
    refine leadingIndent_eq_some_iff.mpr ⟨hwidth, ?_, ?_⟩
    · rw [List.length_append, List.length_cons]
      omega
    · rw [List.takeWhile_append_of_pos hmargin.allBlank, List.takeWhile_cons_of_neg hc,
        List.append_nil, hlength]

end Indented

/-- Lines behind a margin, with blank lines around them, have the margin for their least
indentation if one of them has no indentation in front of it. -/
theorem minimumIndent_around {front back moved : List (List Char)} {c : Char} {cs : List Char}
    (hlines : List.Forall₂ (Indented width) ls moved) (hwidth : 0 < width)
    (hfront : ∀ l ∈ front, AllBlank l) (hback : ∀ l ∈ back, AllBlank l)
    (hmem : c :: cs ∈ ls) (hc : ¬ isBlank c = true) :
    minimumIndent (front ++ (moved ++ back)) = some width := by
  rw [minimumIndent_eq_some_iff]
  constructor
  · obtain ⟨i, hi, hindented⟩ := exists_right_of_forall₂ hlines hmem
    exact ⟨i, by simp [hi], hindented.leadingIndent_eq hwidth hc⟩
  · intro l hl n hn
    rcases List.mem_append.mp hl with hl | hl
    · rw [leadingIndent_of_allBlank (hfront l hl)] at hn
      contradiction
    · rcases List.mem_append.mp hl with hl | hl
      · obtain ⟨k, -, hindented⟩ := exists_left_of_forall₂ hlines hl
        exact hindented.width_le_leadingIndent hn
      · rw [leadingIndent_of_allBlank (hback l hl)] at hn
        contradiction

theorem map_stripLine_of_indented {moved : List (List Char)}
    (h : List.Forall₂ (Indented width) ls moved) (hwidth : 0 < width) :
    moved.map (stripLine width) = ls := by
  have hback : ls.map id = moved.map (stripLine width) :=
    map_eq_map_of_forall₂ h fun _ _ _ hi => (hi.stripLine_eq hwidth).symm
  rw [← hback, List.map_id]

theorem lines_joinLines_of_indented {moved : List (List Char)}
    (h : List.Forall₂ (Indented width) (lines text) moved) :
    moved ≠ [] ∧ (∀ l ∈ moved, '\n' ∉ l) ∧ lines (joinLines moved) = moved := by
  have hne : moved ≠ [] := by
    rintro rfl
    exact lines_ne_nil _ (List.forall₂_nil_right_iff.mp h)
  have hfeed : ∀ l ∈ moved, '\n' ∉ l := by
    intro l hl
    obtain ⟨k, hk, hi⟩ := exists_left_of_forall₂ h hl
    exact hi.lineFeed_notMem (lineFeed_notMem_of_mem_lines hk)
  exact ⟨hne, hfeed, lines_joinLines hne hfeed⟩

theorem lines_between_of_indented {moved : List (List Char)} {tail : List Char}
    (h : List.Forall₂ (Indented width) (lines text) moved) (htail : IsMargin tail) :
    lines ('\n' :: (joinLines moved ++ '\n' :: tail)) = [[]] ++ (moved ++ [tail]) := by
  obtain ⟨hne, hfeed, -⟩ := lines_joinLines_of_indented h
  rw [← joinLines_between hne]
  apply lines_joinLines (by simp)
  simp only [List.forall_mem_append, List.forall_mem_singleton]
  exact ⟨List.not_mem_nil, hfeed, htail.lineFeed_notMem⟩

theorem exists_firstLine {c : Char} (hc : c ≠ '\n') (cs : List Char) :
    ∃ l, c :: l ∈ lines (c :: cs) := by
  obtain ⟨l, ls, hlines⟩ := exists_lines cs
  refine ⟨l, ?_⟩
  rw [lines_cons_of_ne hc hlines]
  exact List.mem_cons_self

/-- Whatever margin of spaces and tabs the lines of a text are put behind, one width for all of
them, normalising the text between line feeds gives the text again. -/
theorem normalize_indented {moved : List (List Char)} {tail : List Char}
    (hstart : ∀ c ∈ text.head?, ¬ isBlank c = true)
    (hstop : ∀ c ∈ text.getLast?, ¬ isBlank c = true) (hwidth : 1 ≤ width)
    (hlines : List.Forall₂ (Indented width) (lines text) moved) (htail : IsMargin tail) :
    normalize ('\n' :: (joinLines moved ++ '\n' :: tail)) = text := by
  cases text with
  | nil =>
    apply normalize_of_allBlank
    cases hlines with
    | cons hi hrest =>
      cases hrest
      simp only [AllBlank, List.forall_mem_cons, List.forall_mem_append, joinLines]
      exact ⟨by decide, hi.allBlank (List.forall_mem_nil _), by decide, htail.allBlank⟩
  | cons c cs =>
    have hc : ¬ isBlank c = true := hstart c rfl
    have hfeed : c ≠ '\n' := by
      rintro rfl
      exact hc (by decide)
    obtain ⟨l, hl⟩ := exists_firstLine hfeed cs
    have hmin : minimumIndent ([[]] ++ (moved ++ [tail])) = some width :=
      minimumIndent_around hlines hwidth (by simp [AllBlank]) (by simpa using htail.allBlank) hl hc
    have hstrip : ([[]] ++ (moved ++ [tail])).map (stripLine width) =
        [[]] ++ (lines (c :: cs) ++ [stripLine width tail]) := by
      rw [List.map_append, List.map_append, map_stripLine_of_indented hlines hwidth]
      rfl
    have hback : AllBlank ('\n' :: stripLine width tail) := by
      rw [AllBlank, List.forall_mem_cons]
      exact ⟨by decide, fun d hd => htail.allBlank d (mem_of_mem_stripLine hd)⟩
    rw [normalize, lines_between_of_indented hlines htail, stripIndentation, hmin,
      Option.getD_some, hstrip, joinLines_between (lines_ne_nil _), joinLines_lines]
    have hfront : AllBlank ['\n'] := List.forall_mem_singleton.mpr (by decide)
    exact trim_around hfront hback hstart hstop

def relativeText : List Char := "a\n\u00a0\n\n  b\r\nc".toList

def relativeIndented : List (List Char) :=
  ["\t a".toList, "  \u00a0".toList, [], "\t\t  b\r".toList, " \tc".toList]

theorem normalize_indented_relativeText :
    (∀ c ∈ relativeText.head?, ¬ isBlank c = true) ∧
      (∀ c ∈ relativeText.getLast?, ¬ isBlank c = true) ∧ 1 ≤ 2 ∧
      List.Forall₂ (Indented 2) (lines relativeText) relativeIndented ∧ IsMargin "\t".toList ∧
      normalize ('\n' :: (joinLines relativeIndented ++ '\n' :: "\t".toList)) =
        relativeText := by
  have hstart : ∀ c ∈ relativeText.head?, ¬ isBlank c = true := by
    have hhead : relativeText.head? = some 'a' := by decide +kernel
    rintro c hc
    obtain rfl := Option.some.inj (hhead.symm.trans hc)
    decide
  have hstop : ∀ c ∈ relativeText.getLast?, ¬ isBlank c = true := by
    have hlast : relativeText.getLast? = some 'c' := by decide +kernel
    rintro c hc
    obtain rfl := Option.some.inj (hlast.symm.trans hc)
    decide
  have hlines : List.Forall₂ (Indented 2) (lines relativeText) relativeIndented := by
    decide +kernel
  have htail : IsMargin "\t".toList := by decide +kernel
  exact ⟨hstart, hstop, by decide, hlines, htail,
    normalize_indented hstart hstop (by decide) hlines htail⟩

end Segment

end Outdent
