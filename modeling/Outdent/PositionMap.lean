import Outdent.Edit
import Outdent.Position
/-! # Position maps

A position map says for positions of an edited text where they come from in the document. It is
a list of mappings, recorded while the pieces of the document are read: the start of every kept
piece and of every line in it is mapped to itself, at the fine resolution every kept character
is, and each line of replacing text is mapped to the start of what it replaces. A position is
looked up at the last mapping at or before it on the same line.
-/
namespace Outdent

inductive Resolution where
  | boundary
  | char
deriving DecidableEq

structure Mapping where
  output : Cursor
  origin : Cursor
deriving DecidableEq

namespace Mapping

/-- Mappings of kept text. `fresh` holds at the start of the piece and after a line feed. -/
def ofKept (resolution : Resolution) : (fresh : Bool) → (output origin : Cursor) →
    List Char → List Mapping
  | _, _, _, [] => []
  | fresh, output, origin, c :: cs =>
    let rest := ofKept resolution (c = '\n') (output.advance c) (origin.advance c) cs
    if fresh || resolution = .char then ⟨output, origin⟩ :: rest else rest

/-- Mappings of replacing text: each of its lines comes from `anchor`. -/
def ofSwapped (anchor : Cursor) : (fresh : Bool) → (output : Cursor) → List Char → List Mapping
  | _, _, [] => []
  | fresh, output, c :: cs =>
    let rest := ofSwapped anchor (c = '\n') (output.advance c) cs
    if fresh then ⟨output, anchor⟩ :: rest else rest

def ofPiece (resolution : Resolution) (output origin : Cursor) : Edit.Piece → List Mapping
  | .kept text => ofKept resolution true output origin text
  | .swapped _ new => ofSwapped origin true output new

def ofPieces (resolution : Resolution) : (output origin : Cursor) → List Edit.Piece → List Mapping
  | _, _, [] => []
  | output, origin, p :: ps =>
    ofPiece resolution output origin p ++
      ofPieces resolution (output.advanceText p.output) (origin.advanceText p.original) ps

end Mapping

/-- The mappings of a result, with the identifier and the full text of its document. -/
structure PositionMap where
  source : String
  contents : List Char
  mappings : List Mapping
deriving DecidableEq

def PositionMap.lookup (map : PositionMap) (position : Cursor) : Option Cursor :=
  match (map.mappings.filter (·.output.le position)).getLast? with
  | some m => if m.output.line = position.line then some m.origin else none
  | none => none

structure Edited where
  code : List Char
  map : Option PositionMap
deriving DecidableEq

/-- Applies edits in any order to a document, and maps the result back at the resolution asked
for. The identifier names the document in the map. -/
def Edited.ofEdits (id : String) (text : List Char) (edits : List Edit)
    (resolution : Option Resolution) : Except EditError Edited := do
  let pieces ← Edit.cut text edits
  return {
    code := pieces.flatMap Edit.Piece.output
    map := resolution.map fun r =>
      ⟨id, text, Mapping.ofPieces r .origin .origin pieces⟩ }

end Outdent
