import Outdent.Syntax.Escape
import Outdent.Syntax.Input
import Outdent.Text.Identifier
/-! # Numerals

The longest numeral at the start of an input. Digits may be parted by single underscores; a
leading zero is only right in front of nothing, a point, or the letter of a base; and no name may
follow a numeral directly.
-/
namespace Outdent.Syntax

structure DigitRun where
  digits : List Char
  rest : Input
  faults : List Nat

def DigitRun.read (isDigit : Char → Bool) (start : Nat) : List Char → Nat → DigitRun
  | [], n => ⟨[], ⟨[], n⟩, []⟩
  | c :: cs, n =>
    if c = '_' then
      let run := read isDigit start cs (n + 1)
      if cs.head?.any isDigit then run else { run with faults := start :: run.faults }
    else if isDigit c then
      let run := read isDigit start cs (n + 1)
      { run with digits := c :: run.digits }
    else ⟨[], ⟨c :: cs, n⟩, []⟩

def DigitRun.ofInput (isDigit : Char → Bool) (i : Input) : DigitRun :=
  read isDigit i.position i.text i.position

structure Numeral where
  rest : Input
  /-- Whether the numeral ends in the mark of a whole number without bounds. -/
  isWhole : Bool
  faults : List Nat
  broken : Option Nat

namespace Numeral

def endingAt (rest : Input) (isWhole : Bool) (faults : List Nat) : Numeral :=
  ⟨rest, isWhole, faults,
    if rest.text.head?.any Text.isIdentifierStart then some rest.position else none⟩

def ofBase (isDigit : Char → Bool) (i : Input) : Numeral :=
  let run := DigitRun.ofInput isDigit i
  if run.digits.isEmpty then ⟨run.rest, false, run.faults, some i.position⟩
  else if run.rest.startsWith ['n'] then endingAt (run.rest.drop 1) true run.faults
  else endingAt run.rest false run.faults

def ofExponent (i : Input) (faults : List Nat) : Numeral :=
  if i.startsWith ['e'] || i.startsWith ['E'] then
    let marked := i.drop 1
    let start :=
      if marked.startsWith ['+'] || marked.startsWith ['-'] then marked.drop 1 else marked
    let run := DigitRun.ofInput Char.isDigit start
    if run.digits.isEmpty then ⟨run.rest, false, faults ++ run.faults, some start.position⟩
    else endingAt run.rest false (faults ++ run.faults)
  else endingAt i false faults

def ofFraction (i : Input) (faults : List Nat) : Numeral :=
  if i.startsWith ['.'] then
    let run := DigitRun.ofInput Char.isDigit (i.drop 1)
    ofExponent run.rest (faults ++ run.faults)
  else ofExponent i faults

/-- A numeral of the decimal system. A zero with digits behind it is a fault: octal digits make it
a whole numeral of the octal system, other digits leave it decimal. -/
def ofDecimal (i : Input) : Numeral :=
  let run := DigitRun.ofInput Char.isDigit i
  if run.rest.startsWith ['n'] then endingAt (run.rest.drop 1) true run.faults
  else if i.startsWith ['0'] && run.rest.position != i.position + 1 then
    if run.digits.all isOctalDigit then
      endingAt run.rest false (run.faults ++ [i.position])
    else ofFraction run.rest (run.faults ++ [i.position])
  else ofFraction run.rest run.faults

/-- The numeral at the start of an input, which starts with a digit or with a point and a digit. -/
def ofInput (i : Input) : Numeral :=
  match i.text with
  | '0' :: 'x' :: _ | '0' :: 'X' :: _ => ofBase (fun c => (hexDigit? c).isSome) (i.drop 2)
  | '0' :: 'o' :: _ | '0' :: 'O' :: _ => ofBase isOctalDigit (i.drop 2)
  | '0' :: 'b' :: _ | '0' :: 'B' :: _ => ofBase (fun c => c == '0' || c == '1') (i.drop 2)
  | '.' :: _ => ofFraction i []
  | _ => ofDecimal i

end Numeral

end Outdent.Syntax
