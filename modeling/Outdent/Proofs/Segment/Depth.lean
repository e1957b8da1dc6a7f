import Outdent.Proofs.Segment.Margin
/-! # Blocks moved deeper

A block whose lines all start with a space or a tab may stand at any depth. Behind a further margin
of one width its lines have that much more indentation, the least one too, so the same is left of
each of them. -/
namespace Outdent.Segment

open Text

variable {width indent : Nat} {line indented margin : List Char} {ls moved : List (List Char)}

def IsShiftable (line : List Char) : Prop := ∀ c ∈ line.head?, c = ' ' ∨ c = '\t'

-- by the first character, not by going through all characters there are
instance (line : List Char) : Decidable (IsShiftable line) :=
  Option.decidableForallMem line.head?

namespace IsShiftable

theorem behind (h : IsShiftable line) (hmargin : IsMargin margin) :
    IsShiftable (margin ++ line) := by
  cases margin with
  | nil => exact h
  | cons c cs =>
    intro d hd
    obtain rfl := Option.some.inj hd
    exact hmargin _ List.mem_cons_self

theorem allBlank (h : IsShiftable line) (hnone : leadingIndent line = none) : AllBlank line := by
  cases line with
  | nil => simp [AllBlank]
  | cons c cs =>
    have hc : isBlank c = true := by
      rcases h c rfl with rfl | rfl
      · decide
      · decide
    rcases allBlank_or_leadingIndent hc with hblank | hindent
    · exact hblank
    · rw [hnone] at hindent
      contradiction

end IsShiftable

namespace Indented

theorem leadingIndent_deeper (h : Indented width line indented) (hline : IsShiftable line) :
    leadingIndent indented = (leadingIndent line).map (· + width) := by
  cases h with
  | empty => rfl
  | @behind margin _ hmargin hlength =>
    cases hindent : leadingIndent line with
    | none =>
      have hblank : AllBlank (margin ++ line) :=
        List.forall_mem_append.mpr ⟨hmargin.allBlank, hline.allBlank hindent⟩
      exact leadingIndent_of_allBlank hblank
    | some n =>
      obtain ⟨hpos, hlt, hcount⟩ := leadingIndent_eq_some_iff.mp hindent
      rw [Option.map_some, leadingIndent_eq_some_iff]
      refine ⟨?_, ?_, ?_⟩
      · omega
      · rw [List.length_append]
        omega
      · rw [List.takeWhile_append_of_pos hmargin.allBlank, List.length_append]
        omega

theorem stripLine_deeper (h : Indented width line indented) (hline : IsShiftable line)
    (indent : Nat) : stripLine indent line = stripLine (indent + width) indented := by
  cases h with
  | empty => rfl
  | @behind margin _ hmargin hlength =>
    rw [stripLine_eq_drop hline, stripLine_eq_drop (hline.behind hmargin), Nat.add_comm,
      ← List.drop_drop, ← hlength, List.drop_left]

end Indented

theorem minimumIndent_deeper (h : List.Forall₂ (Indented width) ls moved)
    (hls : ∀ l ∈ ls, IsShiftable l) :
    minimumIndent moved = (minimumIndent ls).map (· + width) := by
  cases hmin : minimumIndent ls with
  | none =>
    rw [minimumIndent_eq_none_iff] at hmin
    rw [Option.map_none, minimumIndent_eq_none_iff]
    intro i hi
    obtain ⟨l, hl, hindented⟩ := exists_left_of_forall₂ h hi
    rw [hindented.leadingIndent_deeper (hls l hl), hmin l hl]
    rfl
  | some n =>
    obtain ⟨⟨l, hl, hindent⟩, hle⟩ := minimumIndent_eq_some_iff.mp hmin
    rw [Option.map_some, minimumIndent_eq_some_iff]
    constructor
    · obtain ⟨i, hi, hindented⟩ := exists_right_of_forall₂ h hl
      refine ⟨i, hi, ?_⟩
      rw [hindented.leadingIndent_deeper (hls l hl), hindent]
      rfl
    · intro i hi m hm
      obtain ⟨k, hk, hindented⟩ := exists_left_of_forall₂ h hi
      rw [hindented.leadingIndent_deeper (hls k hk)] at hm
      obtain ⟨j, hj, rfl⟩ := Option.map_eq_some_iff.mp hm
      have hleast := hle k hk j hj
      omega

/-- A block whose lines all start with a space or a tab is normalised to the same text however deep
it stands: behind any further margin, of one width for all of its lines. -/
theorem normalize_deeper {raw : List Char} (hraw : ∀ l ∈ lines raw, IsShiftable l)
    (hlines : List.Forall₂ (Indented width) (lines raw) moved) :
    normalize (joinLines moved) = normalize raw := by
  obtain ⟨-, -, hmoved⟩ := lines_joinLines_of_indented hlines
  have hmin := minimumIndent_deeper hlines hraw
  cases hindent : minimumIndent (lines raw) with
  | none =>
    rw [minimumIndent_eq_none_iff] at hindent
    have hblank : ∀ l ∈ lines raw, AllBlank l := fun l hl => (hraw l hl).allBlank (hindent l hl)
    have hmovedBlank : ∀ i ∈ moved, AllBlank i := by
      intro i hi
      obtain ⟨l, hl, hindented⟩ := exists_left_of_forall₂ hlines hi
      exact hindented.allBlank (hblank l hl)
    have hrawBlank := allBlank_joinLines hblank
    rw [joinLines_lines] at hrawBlank
    rw [normalize_of_allBlank hrawBlank, normalize_of_allBlank (allBlank_joinLines hmovedBlank)]
  | some n =>
    have hstrip : (lines raw).map (stripLine n) = moved.map (stripLine (n + width)) :=
      map_eq_map_of_forall₂ hlines fun l hl _ hi => hi.stripLine_deeper (hraw l hl) n
    rw [normalize, normalize, hmoved, stripIndentation, stripIndentation, hmin, hindent,
      Option.map_some, Option.getD_some, Option.getD_some, hstrip]

def shallowBlock : List Char := "  a\n \n\n     \n\t\tb\r\n   c".toList

def deeperLines : List (List Char) :=
  ["\t    a".toList, "    ".toList, [], " \t      ".toList, "\t\t\t\t\tb\r".toList,
    "  \t   c".toList]

theorem normalize_deeper_shallowBlock : (∀ l ∈ lines shallowBlock, IsShiftable l) ∧
    List.Forall₂ (Indented 3) (lines shallowBlock) deeperLines ∧
    normalize shallowBlock = "a\n\n\n   \nb\r\n c".toList ∧
    normalize (joinLines deeperLines) = normalize shallowBlock := by
  have hraw : ∀ l ∈ lines shallowBlock, IsShiftable l := by decide +kernel
  have hlines : List.Forall₂ (Indented 3) (lines shallowBlock) deeperLines := by decide +kernel
  exact ⟨hraw, hlines, by decide +kernel, normalize_deeper hraw hlines⟩

end Outdent.Segment
