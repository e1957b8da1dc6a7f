import Outdent.Proofs.Files.Spelling
import Outdent.Proofs.Project.Confinement
/-! # When outputs meet

A source below the root is written at the same way below the output directory, so that different
files are kept apart. A source outside the root keeps its last name only, and nothing asks whether
another source goes by that name. What is written for a source stays until a later one is written
there. -/
namespace Outdent

open Outdent.CommandLine (TransformRequest)
open Outdent.Files (IsName Location Path Route Tree isVoid resolve resolve_of_isName isName_resolve)

theorem Files.Tree.mem_entries_of_mem_files {t : Tree} {l : Location} {content : Files.Content}
    (h : (l, content) ∈ t.files) : (l, .file content) ∈ t.entries := by
  obtain ⟨⟨m, e⟩, hmem, heq⟩ := List.mem_filterMap.mp h
  cases e with
  | directory => simp at heq
  | file c =>
    obtain ⟨rfl, rfl⟩ : m = l ∧ c = content := by simpa using heq
    exact hmem

theorem Ignore.walk_found {t : Tree} {directory l : Location} {root : Path} {names : List String}
    {found : List (Location × List String)} (h : walk t directory root = .ok found)
    (hf : (l, names) ∈ found) : (l = root.resolved directory ∧ names = []) ∨
      (isReached t (root.resolved directory) l = true ∧
        names = l.drop (root.resolved directory).length ∧ ∃ content, (l, content) ∈ t.files) := by
  by_cases hhyphen : (root.spelling == "-") = true
  · simp only [walk, hhyphen, if_true, Except.ok.injEq] at h
    simp [← h] at hf
  · simp only [walk, hhyphen, Bool.false_eq_true, if_false] at h
    split at h
    · contradiction
    · next m content hfind =>
      rw [Except.ok.injEq] at h
      obtain ⟨rfl, rfl⟩ : l = m ∧ names = [] := by simpa [← h] using hf
      exact .inl ⟨Tree.find_eq_ok hfind, rfl⟩
    · next m hfind =>
      split at h
      · contradiction
      · rw [Except.ok.injEq] at h
        rw [← h] at hf
        obtain ⟨⟨l', content⟩, hmem, heq⟩ := List.mem_map.mp hf
        obtain ⟨hfile, hreached⟩ := List.mem_filter.mp hmem
        obtain ⟨rfl, rfl⟩ : l' = l ∧ l'.drop m.length = names := by simpa using heq
        rw [← Tree.find_eq_ok hfind]
        exact .inr ⟨hreached, rfl, content, hfile⟩

theorem Ignore.mem_walk {t : Tree} {directory l : Location} {root : Path} {names : List String}
    {found : List (Location × List String)} (h : walk t directory root = .ok found)
    (hf : (l, names) ∈ found) : l = root.resolved directory ++ names ∧
      (names = [] ∨ ∃ content, (l, content) ∈ t.files) := by
  rcases walk_found h hf with ⟨rfl, rfl⟩ | ⟨hreached, rfl, hfile⟩
  · exact ⟨by rw [List.append_nil], .inl rfl⟩
  · simp only [isReached, Bool.and_eq_true, List.isPrefixOf_iff_prefix] at hreached
    exact ⟨(List.prefix_iff_eq_append.mp hreached.1.1.2).symm, .inr hfile⟩

namespace Project

/-- A project whose locations and paths are made of names. -/
structure IsNamed (p : Project) : Prop where
  directory : ∀ n ∈ p.directory, IsName n
  root : ∀ n ∈ p.root.names, '/' ∉ n.toList
  files : ∀ e ∈ p.files.entries, ∀ n ∈ e.1, IsName n

def rootAt (p : Project) : Location := p.root.resolved p.directory

def fileAt (p : Project) (s : Source) : Location := s.path.resolved p.directory

variable {p : Project}

namespace IsNamed

variable (hp : p.IsNamed)

include hp

theorem isName_rootAt : ∀ n ∈ p.rootAt, IsName n := by
  refine isName_resolve ?_ hp.root
  split_ifs
  · simp
  · exact hp.directory

theorem resolved_directory (l : Location) :
    (Path.ofSteps p.directory).resolved l = p.directory := by
  simp [Path.resolved, Path.ofSteps, resolve_of_isName hp.directory]

theorem resolved_absoluteRoot (l : Location) : p.absoluteRoot.resolved l = p.rootAt := by
  rw [absoluteRoot, Path.resolved_join, hp.resolved_directory, rootAt]

end IsNamed

theorem isAbsolute_join_ofSteps (l : Location) (q : Path) :
    ((Path.ofSteps l).join q).isAbsolute = true := by
  by_cases hq : q.isAbsolute = true <;> simp [Path.join, hq, Path.ofSteps]

theorem exists_names_of_walk (hp : p.IsNamed) {found : List Source} (h : p.walk = .ok found)
    {s : Source} (hs : s ∈ found) :
    ∃ names, (∀ n ∈ names, IsName n) ∧ s = walked (p.rootAt ++ names) names := by
  cases hwalk : Ignore.walk p.files p.directory p.root with
  | error fault => simp [walk, hwalk, Except.map] at h
  | ok files =>
    obtain rfl : files.map (fun f => walked f.1 f.2) = found := by
      simpa [walk, hwalk, Except.map] using h
    obtain ⟨⟨l, names⟩, hf, rfl⟩ := List.mem_map.mp hs
    obtain ⟨hway, hroot | ⟨content, hfile⟩⟩ := Ignore.mem_walk hwalk hf
    · exact ⟨names, by simp [hroot], by rw [hway, rootAt]⟩
    · refine ⟨names, fun n hn => ?_, by rw [hway, rootAt]⟩
      exact hp.files _ (Tree.mem_entries_of_mem_files hfile) n
        (hway ▸ List.mem_append_right _ hn)

theorem fileAt_walked_eq {l : Location} (hl : ∀ n ∈ l, IsName n) (names : List String) :
    p.fileAt (walked l names) = l := by
  simp [fileAt, walked, Path.resolved, Path.ofSteps, resolve_of_isName hl]

end Project

namespace Placement

/-- The way from the output directory to the output of a source. -/
def way (id : String) : List String := (Route.along {} (place id).names).down

/-- An identifier with a last name whose names nowhere lead above where they start. -/
structure IsLevel (id : String) : Prop where
  named : (place id).fileName?.isSome
  level : (Route.along {} (place id).names).up = 0

instance (id : String) : Decidable (IsLevel id) :=
  decidable_of_iff ((place id).fileName?.isSome ∧ (Route.along {} (place id).names).up = 0)
    ⟨fun h => ⟨h.1, h.2⟩, fun h => ⟨h.named, h.level⟩⟩

namespace IsLevel

variable {id : String} (h : IsLevel id)

include h

theorem isAbsolute_place : (place id).isAbsolute = false := by
  obtain ⟨name, hname⟩ := Option.isSome_iff_exists.mp h.named
  by_cases habsolute : (Path.ofString id).isAbsolute = true
  · rw [place_of_isAbsolute habsolute hname]
  · simp [place, habsolute]

theorem resolve_place (l : Location) : resolve l (place id).names = l ++ way id := by
  rw [Route.resolve_eq_endFrom, Route.endFrom, h.level, Nat.sub_zero, List.take_length, way]

theorem codeAt_eq_append (directory : Location) (outDir : Path) :
    codeAt directory outDir id = outDir.resolved directory ++ way id := by
  rw [codeAt_eq, Path.resolved, h.isAbsolute_place, if_neg (by decide), h.resolve_place]

theorem exists_way_eq : ∃ front name,
    (place id).fileName? = some name ∧ way id = front ++ [name] := by
  obtain ⟨name, hname⟩ := Option.isSome_iff_exists.mp h.named
  obtain ⟨hsteps, hproper, hup⟩ := Path.steps_of_fileName? hname
  refine ⟨(Route.along {} (place id).steps.dropLast).down, name, hname, ?_⟩
  rw [way, ← Route.along_steps, ← Path.steps, ← hsteps, Route.along_append, hsteps]
  simp [Route.along, hproper, hup]

theorem mapAt_eq_append (directory : Location) (outDir : Path) :
    mapAt directory outDir id =
      outDir.resolved directory ++ ((way id).dropLast ++ [mapName (place id)]) := by
  obtain ⟨front, name, hname, hway⟩ := h.exists_way_eq
  obtain ⟨parent, hcode, hmap⟩ := exists_parent directory outDir hname
  rw [h.codeAt_eq_append, hway, ← List.append_assoc] at hcode
  obtain ⟨hparent, -⟩ := List.append_inj' hcode rfl
  rw [hmap, ← hparent, hway, mapName, hname]
  simp

end IsLevel

end Placement

open Placement (IsLevel codeAt mapAt mapName place way written content)

namespace Project

variable {p : Project} {r : TransformRequest} {outDir : String}

end Project

end Outdent
