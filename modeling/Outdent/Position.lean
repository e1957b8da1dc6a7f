/-! # Positions in a text

Two ways to say where something stands. A point has a line and a column counted in bytes, both
from one, and is found through a table of line starts. A cursor has a line and a column counted
in UTF-16 units, both from zero, which is how position maps count.
-/
namespace Outdent

/-- A line and a byte column, counted from one, with the byte offset they stand for. -/
structure Point where
  line : Nat
  column : Nat
  offset : Nat
deriving DecidableEq

/-- The byte offsets at which lines start, ascending; the first is zero. -/
structure LineTable where
  starts : List Nat
deriving DecidableEq

namespace LineTable

def startsAfter (offset : Nat) : List Char → List Nat
  | [] => []
  | c :: cs =>
    let next := offset + c.utf8Size
    if c = '\n' then next :: startsAfter next cs else startsAfter next cs

def ofText (text : List Char) : LineTable := ⟨0 :: startsAfter 0 text⟩

inductive Place where
  /-- At the start with this index. -/
  | hit (index : Nat)
  /-- At no start, and in front of the first one that is greater, which has this index. -/
  | gap (index : Nat)
deriving DecidableEq

/-- Halves a stretch of `size` line starts from index `low` on until it has a single one: the last
that is not beyond the offset, if the first is not. -/
def narrow (starts : List Nat) (offset low size : Nat) : Nat :=
  if size ≤ 1 then low
  else
    let half := size / 2
    let middle := low + half
    narrow starts offset (if offset < starts.getD middle 0 then low else middle) (size - half)
termination_by size

def search (table : LineTable) (offset : Nat) : Place :=
  let index := narrow table.starts offset 0 table.starts.length
  match table.starts[index]? with
  | none => .gap 0
  | some start =>
    if start = offset then .hit index
    else if start < offset then .gap (index + 1)
    else .gap index

def lineIndex (table : LineTable) (offset : Nat) : Nat :=
  match table.search offset with
  | .hit index => index
  | .gap index => index - 1

/-- The point of a byte offset: its line, and the distance from the start of that line. An offset
past the end is measured from the last line. -/
def point (table : LineTable) (offset : Nat) : Point :=
  let index := table.lineIndex offset
  { line := index + 1, column := offset - table.starts.getD index 0 + 1, offset }

end LineTable

/-- A line and a column in UTF-16 units, counted from zero. -/
structure Cursor where
  line : Nat
  column : Nat
deriving DecidableEq

namespace Cursor

def origin : Cursor := ⟨0, 0⟩

def units (c : Char) : Nat := if c.toNat < 0x10000 then 1 else 2

def advance (p : Cursor) (c : Char) : Cursor :=
  if c = '\n' then ⟨p.line + 1, 0⟩ else ⟨p.line, p.column + units c⟩

def advanceText (p : Cursor) (text : List Char) : Cursor := text.foldl advance p

def le (a b : Cursor) : Bool := a.line < b.line || (a.line == b.line && a.column ≤ b.column)

theorem advanceText_append (p : Cursor) (xs ys : List Char) :
    p.advanceText (xs ++ ys) = (p.advanceText xs).advanceText ys := by
  simp [advanceText]

end Cursor

end Outdent
