import Outdent.Glob.Basic
/-! # Reading glob patterns

A pattern is read from left to right. The row under construction is kept in reverse, together
with the rows of every alternation that is still open. Two stars count as a directory form only
between separators or at an end of the pattern; elsewhere they are two single stars. Two dialects
are read: one in which a pattern may skip from name to name, and one that stays within a name.
-/
namespace Outdent.Glob

structure Dialect where
  crossesNames : Bool
  allowsLoneBracket : Bool
deriving DecidableEq

namespace Dialect

def path : Dialect := ⟨true, false⟩

def name : Dialect := ⟨false, true⟩

def questionMark (d : Dialect) : Part := if d.crossesNames then .anyByte else .nameByte

def star (d : Dialect) : Part := if d.crossesNames then .anyRun else .nameRun

end Dialect

/-- An alternation that is still open: the row in front of it and its finished rows, both in
reverse. -/
structure OpenGroup where
  before : List Part
  rows : List (List Part)

/-- The state of reading: the current row in reverse, the open alternations from the innermost
outwards, and the last character read. -/
structure Reader where
  dialect : Dialect
  row : List Part
  groups : List OpenGroup
  previous : Option Char

/-- The body of a character class, up to its closing bracket. `first` holds for the first
character, which is literal whatever it is; `pending` after a hyphen that may make a range. -/
def classBody : (first pending : Bool) → List (Char × Char) → List Char →
    Except Fault (List (Char × Char) × List Char)
  | _, _, _, [] => .error .unclosedClass
  | first, pending, ranges, c :: cs =>
    let extend (c : Char) : Except Fault (List (Char × Char)) :=
      match ranges with
      | (low, _) :: earlier => if c < low then .error (.invalidRange low c)
        else .ok ((low, c) :: earlier)
      | [] => .ok [(c, c)]
    if c = ']' && !first then
      .ok ((if pending then ('-', '-') :: ranges else ranges).reverse, cs)
    else if c = '-' && !first && !pending then classBody false true ranges cs
    else if pending then do classBody false false (← extend c) cs
    else classBody false false ((c, c) :: ranges) cs

def charClass : List Char → Except Fault (Part × List Char)
  | c :: cs =>
    if c = '!' || c = '^' then do
      let (ranges, rest) ← classBody true false [] cs
      return (.byteClass true ranges, rest)
    else do
      let (ranges, rest) ← classBody true false [] (c :: cs)
      return (.byteClass false ranges, rest)
  | [] => .error .unclosedClass

namespace Reader

def push (r : Reader) (p : Part) : Reader := { r with row := p :: r.row }

def pushTwoStars (r : Reader) : Reader := (r.push r.dialect.star).push r.dialect.star

/-- Replaces the separator in front of two stars by the form they make, unless a directory form
already stands there. -/
def pushDirectories (r : Reader) (form : Part) : Reader :=
  match r.row with
  | .leadingDirectories :: _ => r
  | .trailingPath :: _ => r
  | _ :: row => { r with row := form :: row }
  | [] => { r with row := [form] }

/-- Reads two stars. `rest` is what follows them; the result says what is left to read. -/
def twoStars (r : Reader) (rest : List Char) : Reader × List Char :=
  if r.row.isEmpty then
    match rest with
    | [] => (r.push .leadingDirectories, [])
    | '/' :: rest => ({ r.push .leadingDirectories with previous := some '/' }, rest)
    | rest => ({ r.pushTwoStars with previous := some '*' }, rest)
  else if r.previous != some '/' &&
      (r.groups.isEmpty || (r.previous != some ',' && r.previous != some '\x7b')) then
    ({ r.pushTwoStars with previous := some '*' }, rest)
  else
    match rest with
    | [] => (r.pushDirectories .trailingPath, [])
    | '/' :: rest => ({ r.pushDirectories .innerDirectories with previous := some '/' }, rest)
    | c :: rest =>
      if (c = ',' || c = '\x7d') && !r.groups.isEmpty then
        (r.pushDirectories .trailingPath, c :: rest)
      else ({ r.pushTwoStars with previous := some '*' }, c :: rest)

def openGroup (r : Reader) : Reader :=
  { r with row := [], groups := ⟨r.row, []⟩ :: r.groups }

def comma (r : Reader) : Reader :=
  match r.groups with
  | [] => r.push (.literal ',')
  | g :: gs => { r with row := [], groups := { g with rows := r.row.reverse :: g.rows } :: gs }

def closeGroup (r : Reader) : Except Fault Reader :=
  match r.groups with
  | [] => .error .unopenedAlternatives
  | g :: gs =>
    .ok { r with
      row := .alternatives (r.row.reverse :: g.rows).reverse :: g.before
      groups := gs }

end Reader

def readParts : (fuel : Nat) → Reader → List Char → Except Fault Reader
  | 0, r, _ => .ok r
  | _, r, [] => .ok r
  | fuel + 1, r, c :: cs =>
    let next (r : Reader) (rest : List Char) : Except Fault Reader :=
      readParts fuel { r with previous := some c } rest
    match c with
    | '?' => next (r.push r.dialect.questionMark) cs
    | '*' =>
      match cs with
      | '*' :: cs =>
        let (r, rest) := r.twoStars cs
        readParts fuel r rest
      | cs => next (r.push r.dialect.star) cs
    | '[' =>
      match charClass cs with
      | .ok (part, rest) => readParts fuel { r.push part with previous := some ']' } rest
      | .error .unclosedClass =>
        if r.dialect.allowsLoneBracket then next (r.push (.literal '[')) cs
        else .error .unclosedClass
      | .error fault => .error fault
    | '\x7b' => next r.openGroup cs
    | '\x7d' => do next (← r.closeGroup) cs
    | ',' => next r.comma cs
    | '\\' =>
      match cs with
      | [] => .error .danglingEscape
      | e :: cs => readParts fuel { r.push (.literal e) with previous := some e } cs
    | c => next (r.push (.literal c)) cs

/-- Reads a pattern. Every step takes at least one character, so as many steps as there are
characters suffice. -/
def Pattern.parse (dialect : Dialect) (text : List Char) : Except Fault Pattern := do
  let r ← readParts text.length ⟨dialect, [], [], none⟩ text
  if r.groups.isEmpty then return ⟨r.row.reverse⟩
  else throw .unclosedAlternatives

end Outdent.Glob
