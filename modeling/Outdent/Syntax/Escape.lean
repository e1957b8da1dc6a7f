/-! # Escape sequences

What a backslash and the characters behind it stand for in strings, templates and names.
-/
namespace Outdent.Syntax

def hexDigit? (c : Char) : Option Nat :=
  if c.isDigit then some (c.toNat - '0'.toNat)
  else if 'a' ≤ c && c ≤ 'f' then some (c.toNat - 'a'.toNat + 10)
  else if 'A' ≤ c && c ≤ 'F' then some (c.toNat - 'A'.toNat + 10)
  else none

def hexNumber? (digits : List Char) : Option Nat :=
  digits.foldl (fun n c => n.bind fun n => (hexDigit? c).map (16 * n + ·)) (some 0)

def isOctalDigit (c : Char) : Bool := '0' ≤ c && c ≤ '7'

/-- The character of a code; a half of a surrogate pair is no character and reads as the
replacement character. -/
def codeCharacter (n : Nat) : Char :=
  if n < 0xD800 ∨ 0xDFFF < n then Char.ofNat n else '\ufffd'

/-- A `u` escape behind its letter: the character and the length of its code, or none if it is not
well formed. -/
def unicodeEscape? : List Char → Option (Char × Nat)
  | '\x7b' :: cs =>
    let digits := cs.takeWhile fun c => (hexDigit? c).isSome
    match hexNumber? digits, cs.drop digits.length with
    | some n, '\x7d' :: _ =>
      if digits.isEmpty ∨ 0x10FFFF < n then none else some (codeCharacter n, digits.length + 2)
    | _, _ => none
  | cs =>
    if (cs.take 4).length < 4 then none
    else (hexNumber? (cs.take 4)).map fun n => (codeCharacter n, 4)

inductive Escape where
  | standsFor (text : List Char) (length : Nat)
  | octal (length : Nat)
  | malformed

def Escape.ofText : List Char → Escape
  | [] => .malformed
  | 'n' :: _ => .standsFor ['\n'] 1
  | 'r' :: _ => .standsFor ['\r'] 1
  | 't' :: _ => .standsFor ['\t'] 1
  | 'b' :: _ => .standsFor ['\x08'] 1
  | 'v' :: _ => .standsFor ['\x0b'] 1
  | 'f' :: _ => .standsFor ['\x0c'] 1
  | '\r' :: '\n' :: _ => .standsFor [] 2
  | '\n' :: _ | '\r' :: _ | '\u2028' :: _ | '\u2029' :: _ => .standsFor [] 1
  | 'x' :: cs =>
    if (cs.take 2).length < 2 then .malformed
    else match hexNumber? (cs.take 2) with
      | some n => .standsFor [codeCharacter n] 3
      | none => .malformed
  | 'u' :: cs =>
    match unicodeEscape? cs with
    | some (c, length) => .standsFor [c] (length + 1)
    | none => .malformed
  | '0' :: cs =>
    if cs.head?.any isOctalDigit then .octal 1 else .standsFor ['\x00'] 1
  | c :: _ => if isOctalDigit c then .octal 1 else .standsFor [c] 1

end Outdent.Syntax
