import Outdent.PositionMap
/-! # Emitting a result character by character

A result and its mappings can be written while the pieces of a document are read, one character at
a time. An emitter holds what is written so far, a cursor behind it and a cursor behind what is
read. The cursors are words of 32 bits, and it stops where an addition to one does not fit.
-/
namespace Outdent

structure WordCursor where
  line : UInt32
  column : UInt32
deriving DecidableEq

namespace WordCursor

def origin : WordCursor := ⟨0, 0⟩

def toCursor (p : WordCursor) : Cursor := ⟨p.line.toNat, p.column.toNat⟩

def sum? (a b : UInt32) : Option UInt32 :=
  if a.toNat + b.toNat < UInt32.size then some (a + b) else none

def advance? (p : WordCursor) (c : Char) : Option WordCursor :=
  if c = '\n' then do
    let line ← sum? p.line 1
    return ⟨line, 0⟩
  else do
    let column ← sum? p.column (UInt32.ofNat (Cursor.units c))
    return ⟨p.line, column⟩

end WordCursor

structure Emitter where
  code : List Char
  /-- Behind the code. -/
  output : WordCursor
  /-- Behind what is read of the document. -/
  original : WordCursor
  /-- Where the piece starts in the document. -/
  anchor : WordCursor
  /-- Whether the next character is the first of its piece or of a line in it. -/
  fresh : Bool
  mappings : Option (List Mapping)
  resolution : Resolution
deriving DecidableEq

namespace Emitter

def initial (resolution : Option Resolution) : Emitter where
  code := []
  output := .origin
  original := .origin
  anchor := .origin
  fresh := true
  mappings := resolution.map fun _ => []
  resolution := resolution.getD .boundary

inductive Step where
  | start
  | copy (c : Char)
  /-- A character of replacing text is written. -/
  | insert (c : Char)
  /-- A character of replaced text is passed. -/
  | pass (c : Char)
deriving DecidableEq

/-- The steps of a piece. Replacing text is written before the text it replaces is passed. -/
def Step.ofPiece : Edit.Piece → List Step
  | .kept text => .start :: text.map .copy
  | .swapped old new => .start :: (new.map .insert ++ old.map .pass)

def Step.ofPieces (ps : List Edit.Piece) : List Step := ps.flatMap ofPiece

/-- The mappings once the place behind the code is mapped to a position of the document, where that
is wanted. -/
def recorded (e : Emitter) (wanted : Bool) (position : WordCursor) : Option (List Mapping) :=
  if wanted then e.mappings.map (· ++ [⟨e.output.toCursor, position.toCursor⟩]) else e.mappings

def step (e : Emitter) : Step → Option Emitter
  | .start => some { e with fresh := true, anchor := e.original }
  | .copy c => do
    let output ← e.output.advance? c
    let original ← e.original.advance? c
    let mappings := e.recorded (e.fresh || e.resolution = .char) e.original
    return { e with code := e.code ++ [c], output, original, fresh := c = '\n', mappings }
  | .insert c => do
    let output ← e.output.advance? c
    let mappings := e.recorded e.fresh e.anchor
    return { e with code := e.code ++ [c], output, fresh := c = '\n', mappings }
  | .pass c => do
    let original ← e.original.advance? c
    return { e with original }

def run (e : Emitter) (steps : List Step) : Option Emitter := steps.foldlM step e

def finish (e : Emitter) (id : String) (text : List Char) : Edited :=
  ⟨e.code, e.mappings.map fun ms => ⟨id, text, ms⟩⟩

end Emitter

end Outdent
