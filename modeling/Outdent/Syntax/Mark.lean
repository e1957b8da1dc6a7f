/-! # Punctuation marks

The marks of the grammar, the longest one a text starts with, and the binding strength of those
that join two operands.
-/
namespace Outdent.Syntax

inductive Mark where
  | openBrace | closeBrace | openParen | closeParen | openBracket | closeBracket
  | dot | ellipsis | semicolon | comma | question | optionalDot | colon | arrow | hash | at
  | backquote | tilde | bang | plusPlus | minusMinus
  | less | lessEqual | greater | greaterEqual | equal | notEqual | strictEqual | strictNotEqual
  | plus | minus | star | slash | percent | starStar | shiftLeft | shiftRight
  | shiftRightUnsigned | ampersand | pipe | caret | ampersands | pipes | questions
  | assign | plusAssign | minusAssign | starAssign | slashAssign | percentAssign
  | starStarAssign | shiftLeftAssign | shiftRightAssign | shiftRightUnsignedAssign
  | ampersandAssign | pipeAssign | caretAssign | ampersandsAssign | pipesAssign
  | questionsAssign
deriving DecidableEq

namespace Mark

/-- The spellings of the marks; of two that start alike the longer stands first. -/
def spellings : List (List Char × Mark) :=
  [(['\x7b'], .openBrace), (['\x7d'], .closeBrace), (['('], .openParen), ([')'], .closeParen),
   (['['], .openBracket), ([']'], .closeBracket), (['.', '.', '.'], .ellipsis), (['.'], .dot),
   ([';'], .semicolon), ([','], .comma), (['?', '?', '='], .questionsAssign),
   (['?', '?'], .questions), (['?', '.'], .optionalDot), (['?'], .question), ([':'], .colon),
   (['=', '>'], .arrow), (['=', '=', '='], .strictEqual), (['=', '='], .equal),
   (['='], .assign), (['#'], .hash), (['@'], .at), (['\x60'], .backquote), (['~'], .tilde),
   (['!', '=', '='], .strictNotEqual), (['!', '='], .notEqual), (['!'], .bang),
   (['+', '+'], .plusPlus), (['+', '='], .plusAssign), (['+'], .plus),
   (['-', '-'], .minusMinus), (['-', '='], .minusAssign), (['-'], .minus),
   (['<', '<', '='], .shiftLeftAssign), (['<', '<'], .shiftLeft), (['<', '='], .lessEqual),
   (['<'], .less), (['>', '>', '>', '='], .shiftRightUnsignedAssign),
   (['>', '>', '>'], .shiftRightUnsigned), (['>', '>', '='], .shiftRightAssign),
   (['>', '>'], .shiftRight), (['>', '='], .greaterEqual), (['>'], .greater),
   (['*', '*', '='], .starStarAssign), (['*', '*'], .starStar), (['*', '='], .starAssign),
   (['*'], .star), (['/', '='], .slashAssign), (['/'], .slash), (['%', '='], .percentAssign),
   (['%'], .percent), (['&', '&', '='], .ampersandsAssign), (['&', '&'], .ampersands),
   (['&', '='], .ampersandAssign), (['&'], .ampersand), (['|', '|', '='], .pipesAssign),
   (['|', '|'], .pipes), (['|', '='], .pipeAssign), (['|'], .pipe),
   (['^', '='], .caretAssign), (['^'], .caret)]

/-- The first spelling of a list that a text starts with. A question mark with a point behind it
is read alone when a digit follows. -/
def firstOf (text : List Char) : List (List Char × Mark) → Option (Mark × Nat)
  | [] => none
  | (spelling, mark) :: rest =>
    if spelling.isPrefixOf text &&
        !(mark = .optionalDot && (text.drop 2).head?.any Char.isDigit) then
      some (mark, spelling.length)
    else firstOf text rest

def ofText (text : List Char) : Option (Mark × Nat) := firstOf text spellings

def spelling (m : Mark) : List Char :=
  ((spellings.find? (·.2 == m)).map (·.1)).getD []

/-- How strongly a mark between two operands binds; the greater binds first. -/
def strength? : Mark → Option Nat
  | .questions | .pipes => some 1
  | .ampersands => some 2
  | .pipe => some 3
  | .caret => some 4
  | .ampersand => some 5
  | .equal | .notEqual | .strictEqual | .strictNotEqual => some 6
  | .less | .lessEqual | .greater | .greaterEqual => some 7
  | .shiftLeft | .shiftRight | .shiftRightUnsigned => some 8
  | .plus | .minus => some 9
  | .star | .slash | .percent => some 10
  | .starStar => some 11
  | _ => none

def wordStrength : Nat := 7

def isCompoundAssignment : Mark → Bool
  | .plusAssign | .minusAssign | .starAssign | .slashAssign | .percentAssign | .starStarAssign
  | .shiftLeftAssign | .shiftRightAssign | .shiftRightUnsignedAssign | .ampersandAssign
  | .pipeAssign | .caretAssign | .ampersandsAssign | .pipesAssign | .questionsAssign => true
  | _ => false

end Mark

end Outdent.Syntax
