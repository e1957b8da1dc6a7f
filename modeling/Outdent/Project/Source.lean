import Outdent.Filter
import Outdent.Ignore.Walk
/-! # The sources of a project

A source is a file together with the identifier it is rewritten under. The sources of a project are
the files that a walk from its root comes to, or the files that are named, as far as they are
eligible. Either way they are taken in the order of their identifiers.
-/
namespace Outdent

open Outdent.Files (Location Path Tree)
open Outdent.Ignore (WalkFault)

structure Source where
  path : Path
  id : String
deriving DecidableEq

structure Project where
  files : Tree
  directory : Location
  root : Path

namespace Project

/-- The project at a path; without one it is where the program is run. -/
def ofPath (files : Tree) (directory : Location) (path : Option String) : Project where
  files := files
  directory := directory
  root := (path.map Path.ofString).getD (.ofSteps directory)

def identifier (p : Path) : String := String.ofList (Filter.slashed p.spelling.toList)

def absoluteRoot (p : Project) : Path := (Path.ofSteps p.directory).join p.root

/-- The source of a named file. Its identifier is the rest of its path below the root, or the whole
path if that does not start with the root. -/
def named (p : Project) (file : String) : Source :=
  let path := (Path.ofSteps p.directory).join (.ofString file)
  ⟨path, identifier ((path.below? p.absoluteRoot).getD path)⟩

def walked (l : Location) (names : List String) : Source :=
  ⟨.ofSteps l, identifier ⟨false, names⟩⟩

def walk (p : Project) : Except WalkFault (List Source) :=
  (Ignore.walk p.files p.directory p.root).map fun found =>
    found.map fun f => walked f.1 f.2

def inOrder (sources : List Source) : List Source :=
  sources.mergeSort fun a b => decide (a.id ≤ b.id)

def sources (p : Project) (filter : Filter) (named : List String) :
    Except WalkFault (List Source) :=
  if named.isEmpty then p.walk.map fun all => inOrder (all.filter fun s => filter.isEligible s.id)
  else .ok (inOrder ((named.map p.named).filter fun s => filter.isEligible s.id))

def excluded (p : Project) (filter : Filter) (named : List String) : List String :=
  ((named.map p.named).filter fun s => ! filter.isEligible s.id).map (·.id)

theorem mem_inOrder {s : Source} {sources : List Source} : s ∈ inOrder sources ↔ s ∈ sources := by
  simp [inOrder]

theorem pairwise_inOrder (sources : List Source) :
    (inOrder sources).Pairwise fun a b => a.id ≤ b.id := by
  have ordered : (inOrder sources).Pairwise fun a b => decide (a.id ≤ b.id) = true :=
    List.pairwise_mergeSort
      (fun a b c hab hbc => by
        simp only [decide_eq_true_eq] at *
        exact String.le_trans hab hbc)
      (fun a b => by simpa using String.le_total a.id b.id) sources
  exact ordered.imp fun h => by simpa using h

end Project

end Outdent
