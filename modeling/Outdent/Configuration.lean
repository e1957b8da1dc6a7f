import Outdent.Error
import Outdent.Files.Tree
/-! # The configuration of a project

A project may keep its options in one of a few files below its root. The first that is there
counts, and no other is read.
-/
namespace Outdent

open Outdent.Files (Location Path Tree)

structure Configuration where
  path : Path
  options : Options
deriving DecidableEq

namespace Configuration

def candidates : List String := ["dedent.toml", ".dedent.toml", ".config/dedent.toml"]

def path? (t : Tree) (directory : Location) (root : Path) : Option Path :=
  (candidates.map fun c => root.join (.ofString c)).find? (t.isFile directory)

def load (t : Tree) (directory : Location) (root : Path) : Except Error (Option Configuration) :=
  match path? t directory root with
  | none => .ok none
  | some path =>
    match t.read directory path with
    | .error fault => .error (.io fault)
    | .ok text =>
      match Options.parse (String.ofList text) with
      | .error (line, column) => .error (.config line column)
      | .ok options => .ok (some ⟨path, options⟩)

end Configuration

end Outdent
