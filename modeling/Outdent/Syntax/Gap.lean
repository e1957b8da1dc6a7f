import Outdent.Syntax.Input
/-! # Gaps between tokens

Blanks, line breaks and comments stand between tokens and mean nothing, apart from the fact that
a line break was there. The comments of a page, opened by `<!--` anywhere or by `-->` at the start
of a line, are read as line comments but are a fault in a module.
-/
namespace Outdent.Syntax

def isInlineBlank (c : Char) : Bool :=
  c == ' ' || c == '\t' || c == '\x0b' || c == '\x0c' || c == '\u00a0' || c == '\ufeff' ||
    c == '\u1680' || ('\u2000' ≤ c && c ≤ '\u200a') || c == '\u202f' || c == '\u205f' ||
    c == '\u3000'

def isLineBreak (c : Char) : Bool := c == '\n' || c == '\r' || c == '\u2028' || c == '\u2029'

structure Gap where
  rest : Input
  newline : Bool
  faults : List Nat

namespace Gap

inductive Place where
  | blanks
  | lineComment
  | blockComment
deriving DecidableEq

/-- Skips a gap from a place in it. `lineStart` tells whether no token stands before on the line;
`newline` whether a line has ended. -/
def skip : Place → List Char → Nat → Bool → Bool → Gap
  | .blanks, '/' :: '/' :: cs, n, lineStart, newline =>
    skip .lineComment cs (n + 2) lineStart newline
  | .blanks, '/' :: '*' :: cs, n, lineStart, newline =>
    skip .blockComment cs (n + 2) lineStart newline
  | .blanks, '<' :: '!' :: '-' :: '-' :: cs, n, lineStart, newline =>
    let rest := skip .lineComment cs (n + 4) lineStart newline
    { rest with faults := n :: rest.faults }
  | .blanks, '-' :: '-' :: '>' :: cs, n, lineStart, newline =>
    if lineStart then
      let rest := skip .lineComment cs (n + 3) lineStart newline
      { rest with faults := n :: rest.faults }
    else ⟨⟨'-' :: '-' :: '>' :: cs, n⟩, newline, []⟩
  | .blanks, c :: cs, n, lineStart, newline =>
    if isLineBreak c then skip .blanks cs (n + c.utf8Size) true true
    else if isInlineBlank c then skip .blanks cs (n + c.utf8Size) lineStart newline
    else ⟨⟨c :: cs, n⟩, newline, []⟩
  | .lineComment, c :: cs, n, lineStart, newline =>
    if isLineBreak c then skip .blanks cs (n + c.utf8Size) true true
    else skip .lineComment cs (n + c.utf8Size) lineStart newline
  | .blockComment, '*' :: '/' :: cs, n, lineStart, newline =>
    skip .blanks cs (n + 2) lineStart newline
  | .blockComment, c :: cs, n, lineStart, newline =>
    let ended := isLineBreak c
    skip .blockComment cs (n + c.utf8Size) (lineStart || ended) (newline || ended)
  | .blockComment, [], n, _, newline => ⟨⟨[], n⟩, newline, [n]⟩
  | _, [], n, _, newline => ⟨⟨[], n⟩, newline, []⟩

def ofInput (i : Input) : Gap :=
  if i.position == 0 && i.startsWith ['#', '!'] then
    skip .lineComment (i.text.drop 2) 2 true false
  else skip .blanks i.text i.position (i.position == 0) false

end Gap

end Outdent.Syntax
