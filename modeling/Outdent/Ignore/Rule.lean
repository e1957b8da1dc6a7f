import Outdent.Glob.Parse
import Outdent.Text.Blank
import Outdent.Text.Lines
import Outdent.Files.Tree
/-! # Rules for what is ignored

A file of rules has one rule a line: a pattern for what to ignore, or, behind an exclamation mark,
for what to keep. A pattern that holds a separator is tied to the directory of the file; any other
applies at every depth below it. The last rule that matches decides.
-/
namespace Outdent.Ignore

structure Rule where
  pattern : Glob.Pattern
  isException : Bool
  onlyDirectories : Bool

structure BadLine where
  line : List Char
  fault : Glob.Fault
deriving DecidableEq

def BadLine.message (b : BadLine) : String :=
  s!"error parsing glob '{String.ofList b.line}': {b.fault.message}"

/-- A line without the blanks at its end, unless the last of them is escaped. -/
def trimLine (line : List Char) : List Char :=
  if "\\ ".toList.isSuffixOf line then line else Text.trimEnd line

structure Draft where
  isException : Bool := false
  isAnchored : Bool := false
  onlyDirectories : Bool := false
  text : List Char

namespace Draft

/-- Reads what stands in front of a pattern: an exclamation mark for an exception and a separator
that ties it to the directory. An escaped exclamation mark or hash sign is the first character of
the pattern. -/
def ofLine : List Char → Draft
  | '\\' :: '!' :: cs => { text := '!' :: cs }
  | '\\' :: '#' :: cs => { text := '#' :: cs }
  | '!' :: '/' :: cs => { isException := true, isAnchored := true, text := cs }
  | '!' :: cs => { isException := true, text := cs }
  | '/' :: cs => { isAnchored := true, text := cs }
  | cs => { text := cs }

/-- Reads a separator at the end, by which a pattern asks for a directory. A backslash in front of
it goes with it. -/
def withEnd (d : Draft) : Draft :=
  match d.text.reverse with
  | '/' :: '\\' :: cs => { d with onlyDirectories := true, text := cs.reverse }
  | '/' :: cs => { d with onlyDirectories := true, text := cs.reverse }
  | _ => d

def isFloating (d : Draft) : Bool := !d.isAnchored && !d.text.contains '/'

/-- The pattern with directories in front if it applies at every depth. A pattern that ends in two
stars matches what is below a directory and not the directory. -/
def fullText (d : Draft) : List Char :=
  let text := if d.isFloating && d.text != "**".toList then "**/".toList ++ d.text else d.text
  if "/**".toList.isSuffixOf text then text ++ "/*".toList else text

def rule (d : Draft) : Except Glob.Fault Rule := do
  return ⟨← Glob.Pattern.parse .name d.fullText, d.isException, d.onlyDirectories⟩

end Draft

/-- The rule of a line; none for an empty line and for a comment. -/
def ruleOfLine? (line : List Char) : Option (Except BadLine Rule) :=
  if line.head? = some '#' then none
  else
    let line := trimLine line
    if line.isEmpty then none
    else
      match (Draft.ofLine line).withEnd.rule with
      | .ok rule => some (.ok rule)
      | .error fault => some (.error ⟨line, fault⟩)

def withoutMarks (text : List Char) : List Char := text.dropWhile (· == '\ufeff')

def withoutReturn (line : List Char) : List Char :=
  if line.getLast? = some '\r' then line.dropLast else line

/-- Lines of which all but the last had a line feed behind them, which takes a carriage return
along. -/
def withoutReturns : List (List Char) → List (List Char)
  | [] => []
  | [last] => [last]
  | line :: rest => withoutReturn line :: withoutReturns rest

def byteLines : List UInt8 → List (List UInt8)
  | [] => [[]]
  | b :: bs =>
    if b = 10 then [] :: byteLines bs
    else match byteLines bs with
      | [] => [[b]]
      | l :: ls => (b :: l) :: ls

def textOf? (bytes : List UInt8) : Option (List Char) :=
  match Files.Content.ofBytes bytes with
  | .text text => some text
  | .bytes _ => none

def linesOf : Files.Content → List (List Char)
  | .text text => withoutReturns (Text.lines (withoutMarks text))
  | .bytes bytes =>
    let rows := (byteLines bytes).map textOf?
    let lines := (rows.takeWhile Option.isSome).filterMap id
    withoutReturns (match lines with
      | [] => []
      | first :: rest => withoutMarks first :: rest)

def numberedRules (content : Files.Content) : List (Nat × Except BadLine Rule) :=
  (linesOf content).zipIdx.filterMap fun (line, i) =>
    (ruleOfLine? line).map fun rule => (i + 1, rule)

/-- The rules of a file; lines whose pattern cannot be read are passed over. -/
def rulesOf (content : Files.Content) : List Rule :=
  (numberedRules content).filterMap fun
    | (_, .ok rule) => some rule
    | (_, .error _) => none

def firstBadLine? (content : Files.Content) : Option (Nat × BadLine) :=
  (numberedRules content).findSome? fun
    | (n, .error bad) => some (n, bad)
    | (_, .ok _) => none

inductive Verdict where
  | ignored
  | kept
deriving DecidableEq

def Rule.applies (r : Rule) (path : List UInt8) (isDirectory : Bool) : Bool :=
  (isDirectory || !r.onlyDirectories) && r.pattern.matchesBytes path

def Rule.verdict (r : Rule) : Verdict := if r.isException then .kept else .ignored

def verdictIn (rules : List Rule) (path : List UInt8) (isDirectory : Bool) : Option Verdict :=
  (rules.reverse.find? (·.applies path isDirectory)).map Rule.verdict

end Outdent.Ignore
