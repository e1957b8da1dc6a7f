import Outdent.Filter
import Outdent.Proofs.Glob.Matching
import Outdent.Proofs.Text.Encoding
/-! # What is eligible by default

Without any configured pattern a document is eligible for its extension, unless it is below a
directory of installed modules. The two patterns that say so are read as rows of parts whose meaning
is a condition on the end and on the directories of a path. -/
namespace Outdent

open Glob (Part RowMatches bytes separator)

namespace Filter

def sourceExtensions : List String := ["js", "cjs", "mjs", "ts", "cts", "mts", "jsx", "tsx"]

/-- A path with a directory of installed modules: its name and a slash stand at the start of the
path or right behind a slash. -/
def IsBelowModules (path : List Char) : Prop :=
  ∃ front back, path = front ++ "node_modules/".toList ++ back ∧
    (front = [] ∨ ∃ above, front = above ++ ['/'])

structure IsSource (id : String) : Prop where
  real : '\x00' ∉ id.toList
  extension : ∃ e ∈ sourceExtensions, ∃ stem, slashed id.toList = stem ++ '.' :: e.toList
  outside : ¬ IsBelowModules (slashed id.toList)

/-! ## The patterns -/

def literals (text : String) : List Part := text.toList.map .literal

def sourceExtension : Part := .alternatives (sourceExtensions.map literals)

def sourcePattern : Glob.Pattern :=
  ⟨[.leadingDirectories, .anyRun, .literal '.', sourceExtension]⟩

def modulesPattern : Glob.Pattern :=
  ⟨.leadingDirectories :: (literals "node_modules" ++ [.trailingPath])⟩

theorem ofPatterns_nil : ofPatterns [] [] = .ok ⟨[sourcePattern], [modulesPattern]⟩ := by rfl

theorem default_eq : default = ⟨[sourcePattern], [modulesPattern]⟩ := by
  rw [default, ofPatterns_nil]

variable {path : List UInt8}

theorem sourceExtension_matches_iff {bs : List UInt8} :
    sourceExtension.Matches bs ↔ ∃ e ∈ sourceExtensions, bs = bytes e.toList := by
  have hvoid : Glob.rowsAreVoid (sourceExtensions.map literals) = false := by rfl
  have hsolid : ∀ e ∈ sourceExtensions, Glob.rowIsVoid (literals e) = false := by decide
  simp only [sourceExtension, Part.Matches, hvoid, Bool.false_eq_true, if_false,
    Glob.someRowMatches_iff, List.mem_map, exists_exists_and_eq_and, literals,
    Glob.rowMatches_literals_iff]
  constructor
  · rintro ⟨e, he, -, rfl⟩
    exact ⟨e, he, rfl⟩
  · rintro ⟨e, he, rfl⟩
    exact ⟨e, he, hsolid e he, rfl⟩

theorem sourcePattern_matches_iff : sourcePattern.matchesBytes path = true ↔
    ∃ e ∈ sourceExtensions, ∃ stem, path = stem ++ bytes ('.' :: e.toList) := by
  rw [Glob.Pattern.matchesBytes_iff_rowMatches (by simp [sourcePattern]) (by rfl)]
  simp only [sourcePattern, Glob.rowMatches_anywhere_iff, Glob.rowMatches_literal_cons_iff,
    Glob.rowMatches_singleton_iff, sourceExtension_matches_iff, Text.bytes_cons]
  constructor
  · rintro ⟨stem, _, rfl, _, rfl, e, he, rfl⟩
    exact ⟨e, he, stem, rfl⟩
  · rintro ⟨e, he, stem, rfl⟩
    exact ⟨stem, _, rfl, _, rfl, e, he, rfl⟩

theorem modulesPattern_matches_iff : modulesPattern.matchesBytes path = true ↔
    ∃ front back, path = front ++ bytes "node_modules/".toList ++ back ∧
      (front = [] ∨ ∃ above, front = above ++ [separator]) := by
  rw [Glob.Pattern.matchesBytes_iff_rowMatches (by simp [modulesPattern, literals]) (by rfl)]
  simp only [modulesPattern, literals, RowMatches, Glob.rowMatches_literals_append_iff,
    Part.Matches]
  have hname : bytes "node_modules/".toList = bytes "node_modules".toList ++ [separator] := by
    rfl
  constructor
  · rintro ⟨front, _, rfl, hfront, _, rfl, _, _, rfl, ⟨back, rfl⟩, rfl⟩
    refine ⟨front, back, ?_, hfront⟩
    rw [hname]
    simp only [List.append_assoc, List.singleton_append, List.append_nil]
  · rintro ⟨front, back, rfl, hfront⟩
    refine ⟨front, _, List.append_assoc _ _ _, hfront, separator :: back, ?_, _, _,
      (List.append_nil _).symm, ⟨back, rfl⟩, rfl⟩
    rw [hname, List.append_assoc, List.singleton_append]

/-! ## The decision -/

theorem isEligible_default_iff_matches {id : String} : default.isEligible id = true ↔
    '\x00' ∉ id.toList ∧ sourcePattern.matchesBytes (bytes (slashed id.toList)) = true ∧
      ¬ modulesPattern.matchesBytes (bytes (slashed id.toList)) = true := by
  rw [default_eq, isEligible]
  by_cases hnull : '\x00' ∈ id.toList
  · simp [hnull]
  · simp [hnull]

theorem exists_extension_iff {path : List Char} :
    (∃ e ∈ sourceExtensions, ∃ stem, bytes path = stem ++ bytes ('.' :: e.toList)) ↔
      ∃ e ∈ sourceExtensions, ∃ stem, path = stem ++ '.' :: e.toList := by
  have hascii : ∀ e ∈ sourceExtensions, ∀ c ∈ '.' :: e.toList, c.toNat < 128 := by
    simp [sourceExtensions]
  constructor
  · rintro ⟨e, he, stem, h⟩
    rw [← List.append_nil (stem ++ _)] at h
    obtain ⟨before, after, rfl, -, hafter⟩ :=
      Text.exists_of_bytes_eq_append (hascii e he) (List.cons_ne_nil _ _) h
    obtain rfl := Text.bytes_eq_nil_iff.mp hafter
    exact ⟨e, he, before, List.append_nil _⟩
  · rintro ⟨e, he, stem, rfl⟩
    exact ⟨e, he, bytes stem, Text.bytes_append _ _⟩

theorem bytes_eq_append_separator_iff {cs : List Char} :
    (∃ above, bytes cs = above ++ [separator]) ↔ ∃ above, cs = above ++ ['/'] := by
  constructor
  · rintro ⟨above, h⟩
    obtain ⟨before, after, rfl, -, hafter⟩ :=
      Text.exists_of_bytes_eq_append_cons (c := '/') (by decide) h
    obtain rfl := Text.bytes_eq_nil_iff.mp hafter
    exact ⟨before, rfl⟩
  · rintro ⟨above, rfl⟩
    exact ⟨bytes above, Text.bytes_append _ _⟩

theorem exists_modules_iff {path : List Char} :
    (∃ front back, bytes path = front ++ bytes "node_modules/".toList ++ back ∧
      (front = [] ∨ ∃ above, front = above ++ [separator])) ↔ IsBelowModules path := by
  constructor
  · rintro ⟨front, back, h, hfront⟩
    obtain ⟨before, after, rfl, rfl, -⟩ :=
      Text.exists_of_bytes_eq_append (by simp) (by simp) h
    rw [Text.bytes_eq_nil_iff, bytes_eq_append_separator_iff] at hfront
    exact ⟨before, after, rfl, hfront⟩
  · rintro ⟨front, back, rfl, hfront⟩
    rw [← Text.bytes_eq_nil_iff, ← bytes_eq_append_separator_iff] at hfront
    exact ⟨bytes front, bytes back, by simp only [Text.bytes_append], hfront⟩

/-- Without configured patterns a filter is always given, and it decides on every identifier as the
default does: by the extension and by the directories. -/
theorem eligible_by_default :
    (∃ filter, ofPatterns [] [] = .ok filter ∧
      ∀ id, filter.isEligible id = default.isEligible id) ∧
    ∀ id, default.isEligible id = true ↔ IsSource id := by
  refine ⟨⟨_, ofPatterns_nil, fun id => by rw [default_eq]⟩, fun id => ?_⟩
  rw [isEligible_default_iff_matches, sourcePattern_matches_iff, modulesPattern_matches_iff,
    exists_extension_iff, exists_modules_iff]
  constructor
  · rintro ⟨hreal, hextension, houtside⟩
    exact ⟨hreal, hextension, houtside⟩
  · rintro ⟨hreal, hextension, houtside⟩
    exact ⟨hreal, hextension, houtside⟩

example : default.isEligible "xnode_modules/.js" = true ∧
    default.isEligible "a\\node_modules/b.ts" = false := by
  decide +kernel

end Filter

end Outdent
