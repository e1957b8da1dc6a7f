import Mathlib.Data.List.Basic
import Outdent.Configuration
import Outdent.Ignore.Walk
/-! # Trees that differ in the order of their entries

A tree lists its entries in some order, and a walk comes to files in that order. Whatever is looked
up in a tree does not depend on it, and a walk comes to the same files in another order. -/
namespace Outdent

open Outdent.Files (Content Location Path Tree)

namespace Files.Tree

/-- Two trees give the same to every location and list the same files, perhaps in another order. -/
structure SameEntries (t u : Tree) : Prop where
  get? : ∀ l, t.get? l = u.get? l
  files : t.files.Perm u.files

theorem lookup_perm {xs ys : List (Location × Entry)} (h : xs.Perm ys)
    (hkeys : (xs.map (·.1)).Nodup) (l : Location) : xs.lookup l = ys.lookup l := by
  induction h with
  | nil => rfl
  | cons x _ ih =>
    obtain ⟨k, e⟩ := x
    rw [List.map_cons, List.nodup_cons] at hkeys
    simp only [List.lookup_cons, ih hkeys.2]
  | swap x y rest =>
    obtain ⟨k, e⟩ := x
    obtain ⟨m, f⟩ := y
    have hne : m ≠ k := by
      intro heq
      simp [heq] at hkeys
    by_cases hk : l = k
    · subst hk
      have hm : (l == m) = false := by simpa using hne.symm
      simp [List.lookup_cons, hm]
    · have hk' : (l == k) = false := by simpa using hk
      simp [List.lookup_cons, hk']
  | trans hxy _ ihxy ihyz =>
    rw [ihxy hkeys, ihyz ((hxy.map (·.1)).nodup_iff.mp hkeys)]

theorem sameEntries_of_perm {t u : Tree} (h : t.entries.Perm u.entries)
    (hkeys : (t.entries.map (·.1)).Nodup) : t.SameEntries u where
  get? l := by simp only [Tree.get?, lookup_perm h hkeys]
  files := h.filterMap _

section lookups

variable {t u : Tree} (h : t.SameEntries u)

include h

theorem follow_eq (l : Location) (names : List String) : t.follow l names = u.follow l names := by
  induction names generalizing l with
  | nil => rfl
  | cons name names ih => simp only [follow, h.get? l, ih]

theorem find_eq (directory : Location) (p : Path) : t.find directory p = u.find directory p := by
  simp only [find, locate, follow_eq h, h.get?]

theorem read_eq (directory : Location) (p : Path) : t.read directory p = u.read directory p := by
  simp only [read, find_eq h]

theorem isFile_eq (directory : Location) (p : Path) :
    t.isFile directory p = u.isFile directory p := by
  simp only [isFile, find_eq h]

end lookups

end Files.Tree

open Outdent.Files.Tree (SameEntries find_eq read_eq isFile_eq)

theorem Configuration.load_eq {t u : Tree} (h : t.SameEntries u) (directory : Location)
    (root : Path) : load t directory root = load u directory root := by
  have hfile : t.isFile directory = u.isFile directory := funext (isFile_eq h directory)
  have hread : ∀ path, t.read directory path = u.read directory path := read_eq h directory
  simp only [load, path?, hfile, hread]

namespace Ignore

section walk

variable {t u : Tree} (h : t.SameEntries u)

include h

theorem isSkipped_eq (l : Location) (isDirectory : Bool) :
    isSkipped t l isDirectory = isSkipped u l isDirectory := by
  have hrules : rulesAt t = rulesAt u := by
    funext d file
    simp only [rulesAt, h.get?]
  simp only [isSkipped, verdict, verdictOf, hrules]

theorem isReached_eq (root l : Location) : isReached t root l = isReached u root l := by
  simp only [isReached, isSkipped_eq h]

theorem badRuleAbove?_eq (root : Location) : badRuleAbove? t root = badRuleAbove? u root := by
  simp only [badRuleAbove?, h.get?]

/-- A walk fails in the same way, or comes to the same files. -/
theorem walk_sameEntries (directory : Location) (root : Path) :
    (∃ fault, walk t directory root = .error fault ∧ walk u directory root = .error fault) ∨
      ∃ found other, walk t directory root = .ok found ∧ walk u directory root = .ok other ∧
        found.Perm other := by
  simp only [walk, ← find_eq h, ← badRuleAbove?_eq h, ← isReached_eq h]
  by_cases hhyphen : (root.spelling == "-") = true
  · exact .inr ⟨[], [], by simp [hhyphen]⟩
  · simp only [hhyphen, Bool.false_eq_true, if_false]
    cases hfind : t.find directory root with
    | error fault => exact .inl ⟨_, rfl, rfl⟩
    | ok found =>
      obtain ⟨l, e⟩ := found
      cases e with
      | file content => exact .inr ⟨_, _, rfl, rfl, .refl _⟩
      | directory =>
        cases hbad : badRuleAbove? t l with
        | some fault => exact .inl ⟨fault, by simp [hbad]⟩
        | none =>
          simp only [hbad]
          exact .inr ⟨_, _, rfl, rfl, (h.files.filter _).map _⟩

end walk

end Ignore

end Outdent
