import Outdent.Text.Bytes
/-! # Edits of a document

An edit removes a byte range of a document or puts text in its place. A list of edits is sorted
by range and then either refused, at the first edit that is not a valid span or that starts
before the one in front of it ends, or cut into pieces: stretches of the document that are kept,
and stretches for which other text stands. The new text is the pieces read one after another.
-/
namespace Outdent

/-- The bytes from `start` up to but not including `stop`. -/
structure Span where
  start : Nat
  stop : Nat
deriving DecidableEq

namespace Span

def le (a b : Span) : Bool := a.start < b.start || (a.start == b.start && a.stop ≤ b.stop)

/-- Whether the span runs forward, ends within the text, and cuts no character. -/
def isValidIn (text : List Char) (r : Span) : Bool :=
  r.start ≤ r.stop && r.stop ≤ Text.byteLength text &&
    Text.isBoundary r.start text && Text.isBoundary r.stop text

def render (r : Span) : String := s!"[{r.start}, {r.stop})"

end Span

inductive Edit where
  | delete (range : Span)
  | replace (range : Span) (text : List Char)
deriving DecidableEq

inductive EditError where
  /-- The range is not a valid span of a document of `size` bytes. -/
  | invalid (range : Span) (size : Nat)
  /-- Two neighbours in sorted order share bytes, or the second starts inside the first. -/
  | overlapping (first second : Span)
deriving DecidableEq

namespace Edit

def range : Edit → Span
  | .delete r => r
  | .replace r _ => r

def replacement : Edit → List Char
  | .delete _ => []
  | .replace _ t => t

def insertSorted (e : Edit) : List Edit → List Edit
  | [] => [e]
  | f :: fs => if e.range.le f.range then e :: f :: fs else f :: insertSorted e fs

/-- Edits by ascending range; edits of one range keep the order they came in. -/
def sort (es : List Edit) : List Edit := es.foldr insertSorted []

def check (text : List Char) : Option Span → List Edit → Except EditError Unit
  | _, [] => .ok ()
  | previous, e :: es =>
    if e.range.isValidIn text then
      match previous with
      | some p =>
        if e.range.start < p.stop then .error (.overlapping p e.range)
        else check text (some e.range) es
      | none => check text (some e.range) es
    else .error (.invalid e.range (Text.byteLength text))

inductive Piece where
  | kept (text : List Char)
  | swapped (old new : List Char)
deriving DecidableEq

def Piece.output : Piece → List Char
  | .kept t => t
  | .swapped _ t => t

def Piece.original : Piece → List Char
  | .kept t => t
  | .swapped t _ => t

/-- Cuts `rest`, which starts at byte `position` of the document, along sorted edits. -/
def pieces (position : Nat) (rest : List Char) : List Edit → List Piece
  | [] => [.kept rest]
  | e :: es =>
    let (before, rest) := Text.splitAtByte (e.range.start - position) rest
    let (old, rest) := Text.splitAtByte (e.range.stop - e.range.start) rest
    .kept before :: .swapped old e.replacement :: pieces e.range.stop rest es

def cut (text : List Char) (es : List Edit) : Except EditError (List Piece) := do
  let sorted := sort es
  check text none sorted
  return pieces 0 text sorted

def apply (text : List Char) (es : List Edit) : Except EditError (List Char) := do
  return (← cut text es).flatMap Piece.output

theorem flatMap_original_pieces (position : Nat) (rest : List Char) (es : List Edit) :
    (pieces position rest es).flatMap Piece.original = rest := by
  induction es generalizing position rest with
  | nil => simp [pieces, Piece.original]
  | cons e es ih =>
    simp only [pieces, List.flatMap_cons, Piece.original, ih]
    rw [Text.splitAtByte_append, Text.splitAtByte_append]

end Edit

end Outdent
