import Outdent.Text.Blank
import Outdent.Text.Lines
/-! # Literal segments of a template

A template literal is a row of literal segments with interpolations between them. Removing the
indentation of a segment takes the smallest indentation found on its lines away from every line
that starts with a space or a tab, and trims the two ends of the whole.
-/
namespace Outdent.Segment

open Outdent.Text

/-- Width of the blank run a line starts with, counted in characters. A line without one, and a
line that is blank throughout, has no indentation. -/
def leadingIndent (line : List Char) : Option Nat :=
  match (line.takeWhile isBlank).length with
  | 0 => none
  | width => if width < line.length then some width else none

def minimumIndent (lines : List (List Char)) : Option Nat :=
  (lines.filterMap leadingIndent).min?

/-- Takes `indent` characters from a line that starts with a space or a tab. A line that starts
otherwise, as one does right after an interpolation, stays as it is. -/
def stripLine (indent : Nat) : List Char → List Char
  | ' ' :: cs => (' ' :: cs).drop indent
  | '\t' :: cs => ('\t' :: cs).drop indent
  | line => line

def stripIndentation (lines : List (List Char)) : List Char :=
  trim (joinLines (lines.map (stripLine ((minimumIndent lines).getD 0))))

def normalize (raw : List Char) : List Char := stripIndentation (lines raw)

def normalizeText (raw : String) : String := String.ofList (normalize raw.toList)

example : normalizeText "\n    foo\n      bar\n  " = "foo\n  bar" := by decide +kernel

/-- Text may follow an interpolation at column zero: it sets no indentation and loses none. -/
example : normalizeText "x\n    foo\n  bar" = "x\n  foo\nbar" := by decide +kernel

end Outdent.Segment
