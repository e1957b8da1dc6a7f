/-! # Glob patterns

A glob is a row of parts that is matched against the bytes of a path. `*` stands for any run of
bytes and `?` for any one byte; whether separators are among them depends on the dialect. The
forms with two stars are tied to separators. Matching computes what a pattern can leave over: a
path matches when nothing is one of the remainders.
-/
namespace Outdent.Glob

def bytes (text : List Char) : List UInt8 := text.flatMap String.utf8EncodeChar

def separator : UInt8 := 47

inductive Part where
  | literal (c : Char)
  | anyByte
  | anyRun
  | nameByte
  | nameRun
  | leadingDirectories
  | trailingPath
  | innerDirectories
  | byteClass (negated : Bool) (ranges : List (Char × Char))
  /-- Any of several rows. A row that stands for nothing does not count unless all do. -/
  | alternatives (rows : List (List Part))

structure Pattern where
  parts : List Part

def remainders : List UInt8 → List (List UInt8)
  | [] => [[]]
  | b :: bs => (b :: bs) :: remainders bs

def remaindersInName : List UInt8 → List (List UInt8)
  | [] => [[]]
  | b :: bs => (b :: bs) :: if b = separator then [] else remaindersInName bs

def afterSeparators : List UInt8 → List (List UInt8)
  | [] => []
  | b :: bs => if b = separator then bs :: afterSeparators bs else afterSeparators bs

def stripBytes : List UInt8 → List UInt8 → Option (List UInt8)
  | [], path => some path
  | _ :: _, [] => none
  | x :: xs, b :: bs => if x = b then stripBytes xs bs else none

/-- Whether a byte lies in a range written with two characters. A character of several bytes
contributes its bytes one by one: the range runs from the last byte of the first character to
the first byte of the second. -/
def inRange (b : UInt8) (range : Char × Char) : Bool :=
  let low := String.utf8EncodeChar range.1
  let high := String.utf8EncodeChar range.2
  if range.1 = range.2 then low.contains b
  else low.dropLast.contains b || high.tail.contains b ||
    match low.getLast?, high.head? with
    | some l, some h => l ≤ b && b ≤ h
    | _, _ => false

mutual

def Part.isVoid : Part → Bool
  | .alternatives rows => rowsAreVoid rows
  | _ => false

def rowIsVoid : List Part → Bool
  | [] => true
  | p :: ps => p.isVoid && rowIsVoid ps

def rowsAreVoid : List (List Part) → Bool
  | [] => true
  | row :: rows => rowIsVoid row && rowsAreVoid rows

end

mutual

def Part.rest : Part → List UInt8 → List (List UInt8)
  | .literal c, path => (stripBytes (String.utf8EncodeChar c) path).toList
  | .anyByte, path => match path with
    | [] => []
    | _ :: bs => [bs]
  | .anyRun, path => remainders path
  | .nameByte, path => match path with
    | [] => []
    | b :: bs => if b = separator then [] else [bs]
  | .nameRun, path => remaindersInName path
  | .leadingDirectories, path => path :: afterSeparators path
  | .trailingPath, path => match path with
    | [] => []
    | b :: bs => if b = separator then remainders bs else []
  | .innerDirectories, path => match path with
    | [] => []
    | b :: bs => if b = separator then bs :: afterSeparators bs else []
  | .byteClass negated ranges, path => match path with
    | [] => []
    | b :: bs => if ranges.any (inRange b) != negated then [bs] else []
  | .alternatives rows, path =>
    if rowsAreVoid rows then [path] else restOfAny rows path

def restOfRow : List Part → List UInt8 → List (List UInt8)
  | [], path => [path]
  | p :: ps, path => ((p.rest path).flatMap (restOfRow ps)).eraseDups

/-- The remainders any row can leave of a path; rows that stand for nothing do not count. -/
def restOfAny : List (List Part) → List UInt8 → List (List UInt8)
  | [], _ => []
  | row :: rows, path =>
    if rowIsVoid row then restOfAny rows path else restOfRow row path ++ restOfAny rows path

end

namespace Pattern

def endsInDot (parts : List Part) : Bool :=
  match parts.getLast? with
  | some (.literal '.') => true
  | _ => false

def isLiteral (parts : List Part) : Bool :=
  parts.all fun
    | .literal _ => true
    | _ => false

/-- A path that leads upwards has no name and no extension, so a pattern that asks for either by
ending in a dot is not met by it. A pattern that is literal after at most one star, or after
directories and a star, asks for a literal ending instead; so does a literal path below any
directories. -/
def asksForDotName (parts : List Part) : Bool :=
  endsInDot parts &&
    match parts with
    | .leadingDirectories :: .anyRun :: rest => !isLiteral rest || rest.length == 1
    | .leadingDirectories :: rest =>
      !isLiteral rest || !rest.any fun
        | .literal '/' => true
        | _ => false
    | .anyRun :: rest => !isLiteral rest || rest.length == 1
    | rest => !isLiteral rest

def leadsUp (path : List UInt8) : Bool :=
  path.reverse.takeWhile (· != separator) == [46, 46]

/-- Whether a path matches, given by its bytes. A pattern of nothing but leading directories
matches every path. -/
def matchesBytes (pattern : Pattern) (path : List UInt8) : Bool :=
  match pattern.parts with
  | [.leadingDirectories] => true
  | parts => !(leadsUp path && asksForDotName parts) && (restOfRow parts path).contains []

end Pattern

inductive Fault where
  | unclosedClass
  | invalidRange (low high : Char)
  | unclosedAlternatives
  | unopenedAlternatives
  | danglingEscape
deriving DecidableEq

def Fault.message : Fault → String
  | .unclosedClass => "unclosed character class; missing ']'"
  | .invalidRange low high => s!"invalid range; '{low}' > '{high}'"
  | .unclosedAlternatives =>
    "unclosed alternate group; missing '\x7d' (maybe escape '\x7b' with '[\x7b]'?)"
  | .unopenedAlternatives =>
    "unopened alternate group; missing '\x7b' (maybe escape '\x7d' with '[\x7d]'?)"
  | .danglingEscape => "dangling '\\'"

end Outdent.Glob
