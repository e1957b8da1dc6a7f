import Outdent.Error
import Outdent.Marker.Usage
import Outdent.Position
import Outdent.Syntax.Parse
/-! # Rewriting a document

A document is read as a module, its edits are collected and applied. A byte order mark at its start
is not part of the module, and positions in the tree are counted without it.
-/
namespace Outdent

structure Document where
  id : String
  text : List Char
deriving DecidableEq

namespace Document

def hasAssertions (id : String) : Bool :=
  let path := id.toList.takeWhile fun c => c != '?' && c != '#'
  [".ts".toList, ".mts".toList, ".cts".toList].any (·.isSuffixOf path)

/-- Whether a less-than sign may open an element in the document. -/
def hasElements (d : Document) : Bool := !hasAssertions d.id

def withoutByteOrderMark : List Char → List Char
  | '\ufeff' :: cs => cs
  | cs => cs

/-- The tree of a document. A document that is no module has a fault at some point of its text. -/
def parse (d : Document) : Except Error Syntax.Module :=
  match Syntax.Module.ofText d.hasElements (withoutByteOrderMark d.text) with
  | .ok m => .ok m
  | .error position =>
    let point := (LineTable.ofText d.text).point (min position (Text.byteLength d.text))
    .error (.parse d.id point.line point.column)

end Document

structure Rewritten where
  id : String
  code : List Char
  map : Option PositionMap
  stats : Marker.Stats
deriving DecidableEq

def Document.rewrite (d : Document) (resolution : Option Resolution) :
    Except Error (Option Rewritten) := do
  let tree ← d.parse
  let stats := Marker.Stats.ofModule tree
  unless stats.hasMatches do return none
  match Edited.ofEdits d.id d.text (Marker.edits tree) resolution with
  | .ok edited => return some ⟨d.id, edited.code, edited.map, stats⟩
  | .error fault => throw (.edit d.id fault)

structure Transformer where
  filter : Filter
  options : Options

namespace Transformer

def ofOptions (options : Options) : Except Error Transformer :=
  match Filter.ofPatterns options.included options.excluded with
  | .ok filter => .ok ⟨filter, options⟩
  | .error fault => .error (.pattern fault)

/-- Rewrites a document; none if it is filtered out or nothing in it asks for it. -/
def transform (t : Transformer) (d : Document) : Except Error (Option Rewritten) :=
  if t.filter.isEligible d.id then d.rewrite t.options.positionMap else .ok none

end Transformer

end Outdent
