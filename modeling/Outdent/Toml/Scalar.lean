import Outdent.Toml.Layout
/-! # Keys and scalars of TOML

Decoding of a key or a scalar as written: quotes and escapes are resolved, and bare scalars are
told apart into truth values, numbers and moments. Numbers and moments are checked for their form
only, since no option takes one.
-/
namespace Outdent.Toml

inductive Scalar where
  | text (content : List Char)
  | boolean (value : Bool)
  | quantity

def hexValue (c : Char) : Option Nat :=
  if '0' ≤ c && c ≤ '9' then some (c.toNat - 48)
  else if 'a' ≤ c && c ≤ 'f' then some (c.toNat - 87)
  else if 'A' ≤ c && c ≤ 'F' then some (c.toNat - 55)
  else none

def hexEscape (digits offset : Nat) (cs : List Char) : Except Nat Char :=
  let given := (cs.take digits).takeWhile (hexValue · |>.isSome)
  if given.length < digits then .error (offset + given.length)
  else
    let n := (given.filterMap hexValue).foldl (fun n d => 16 * n + d) 0
    if n < 0x110000 && !(0xD800 ≤ n && n < 0xE000) then .ok (Char.ofNat n) else .error offset

/-- The character of an escape and the number of characters it takes after the backslash, which
stands in front of byte `offset`. -/
def escaped (offset : Nat) : List Char → Except Nat (Char × Nat)
  | [] => .error offset
  | c :: cs =>
    match c with
    | 'b' => .ok ('\x08', 1)
    | 'e' => .ok ('\x1b', 1)
    | 'f' => .ok ('\x0c', 1)
    | 'n' => .ok ('\n', 1)
    | 'r' => .ok ('\r', 1)
    | 't' => .ok ('\t', 1)
    | '"' => .ok ('"', 1)
    | '\\' => .ok ('\\', 1)
    | 'x' => do return (← hexEscape 2 (offset + 1) cs, 3)
    | 'u' => do return (← hexEscape 4 (offset + 1) cs, 5)
    | 'U' => do return (← hexEscape 8 (offset + 1) cs, 9)
    | _ => .error offset

def basicContent : (fuel : Nat) → (offset : Nat) → List Char → Except Nat (List Char)
  | 0, _, _ => .ok []
  | _, _, [] => .ok []
  | fuel + 1, offset, c :: cs =>
    if c = '\\' then do
      let (e, n) ← escaped (offset + 1) cs
      return e :: (← basicContent fuel (offset + 1 + n) (cs.drop n))
    else if isControl c then .error offset
    else do return c :: (← basicContent fuel (offset + c.utf8Size) cs)

/-- Whether a backslash in front of this text ends its line: only space stands between. -/
def continuesLine (cs : List Char) : Bool :=
  match cs.dropWhile fun c => c = ' ' || c = '\t' with
  | '\n' :: _ => true
  | '\r' :: '\n' :: _ => true
  | _ => false

/-- The content of a long string that starts at byte `offset`. Line ends may stand in it, and a
backslash at the end of a line takes away all space up to the next word. -/
def longContent (escapes : Bool) : (fuel : Nat) → (offset : Nat) → List Char →
    Except Nat (List Char)
  | 0, _, _ => .ok []
  | _, _, [] => .ok []
  | fuel + 1, offset, c :: cs =>
    if c = '\\' && escapes then
      if continuesLine cs then
        let isGap (c : Char) : Bool := c = ' ' || c = '\t' || c = '\n' || c = '\r'
        longContent escapes fuel (offset + 1 + (cs.takeWhile isGap).length) (cs.dropWhile isGap)
      else do
        let (e, n) ← escaped (offset + 1) cs
        return e :: (← longContent escapes fuel (offset + 1 + n) (cs.drop n))
    else if c = '\n' then do return c :: (← longContent escapes fuel (offset + 1) cs)
    else if c = '\r' then
      match cs with
      | '\n' :: cs => do return c :: '\n' :: (← longContent escapes fuel (offset + 2) cs)
      | _ => .error (offset + 1)
    else if isControl c then .error offset
    else do return c :: (← longContent escapes fuel (offset + c.utf8Size) cs)

/-- The text between quotes of the given number, or the offset of the end where the closing ones
should stand. -/
def between (quote : Char) (count : Nat) (l : Lexeme) : Except Nat (List Char) :=
  let body := l.text.drop count
  let close := List.replicate count quote
  if close.isSuffixOf body then .ok (body.take (body.length - count))
  else .error (l.start + Text.byteLength l.text)

/-- A long string without the line end it may start with, and where the rest starts. -/
def withoutFirstLineEnd (offset : Nat) : List Char → Nat × List Char
  | '\n' :: cs => (offset + 1, cs)
  | '\r' :: '\n' :: cs => (offset + 2, cs)
  | cs => (offset, cs)

def quotedContent (l : Lexeme) : Except Nat (List Char) :=
  match l.quotation with
  | .bare => .ok l.text
  | .basic => do
    let body ← between '"' 1 l
    basicContent body.length (l.start + 1) body
  | .literal => do
    let body ← between '\'' 1 l
    match offsetOf isControl (l.start + 1) body with
    | some offset => throw offset
    | none => return body
  | .longBasic => do
    let (offset, body) := withoutFirstLineEnd (l.start + 3) (← between '"' 3 l)
    longContent true body.length offset body
  | .longLiteral => do
    let (offset, body) := withoutFirstLineEnd (l.start + 3) (← between '\'' 3 l)
    longContent false body.length offset body

def isKeyChar (c : Char) : Bool := c.isAlphanum || c == '-' || c == '_'

def keyName (l : Lexeme) : Except Nat (List Char) :=
  match l.quotation with
  | .bare =>
    if l.text.isEmpty then .error l.start
    else match offsetOf (!isKeyChar ·) l.start l.text with
      | some offset => .error offset
      | none => .ok l.text
  | _ => quotedContent l

def isDigitRun (isDigit : Char → Bool) : List Char → Bool
  | [] => false
  | [c] => isDigit c
  | c :: '_' :: cs => isDigit c && isDigitRun isDigit cs
  | c :: cs => isDigit c && isDigitRun isDigit cs

def isDecimal (cs : List Char) : Bool :=
  isDigitRun Char.isDigit cs && (cs.head? != some '0' || cs.length == 1)

def unsigned : List Char → List Char
  | '+' :: cs => cs
  | '-' :: cs => cs
  | cs => cs

def isInteger (cs : List Char) : Bool :=
  match cs with
  | '0' :: 'x' :: ds => isDigitRun (hexValue · |>.isSome) ds
  | '0' :: 'o' :: ds => isDigitRun (fun c => '0' ≤ c && c ≤ '7') ds
  | '0' :: 'b' :: ds => isDigitRun (fun c => c = '0' || c = '1') ds
  | cs => isDecimal (unsigned cs)

def isFloat (cs : List Char) : Bool :=
  let cs := unsigned cs
  if cs = ['i', 'n', 'f'] || cs = ['n', 'a', 'n'] then true
  else
    let notExponent (c : Char) : Bool := c != 'e' && c != 'E'
    let mantissa := cs.takeWhile notExponent
    let exponent := cs.dropWhile notExponent
    let whole := mantissa.takeWhile (· != '.')
    let fraction := mantissa.dropWhile (· != '.')
    isDecimal whole &&
      (fraction.isEmpty || isDigitRun Char.isDigit fraction.tail) &&
      (exponent.isEmpty || isDigitRun Char.isDigit (unsigned exponent.tail)) &&
      !(fraction.isEmpty && exponent.isEmpty)

def decimal (cs : List Char) : Nat := cs.foldl (fun n c => 10 * n + (c.toNat - 48)) 0

def daysIn (year month : Nat) : Nat :=
  if month = 2 then
    if year % 4 = 0 && (year % 100 != 0 || year % 400 = 0) then 29 else 28
  else if month = 4 || month = 6 || month = 9 || month = 11 then 30 else 31

def isDate : List Char → Bool
  | [a, b, c, d, '-', e, f, '-', g, h] =>
    let month := decimal [e, f]
    let day := decimal [g, h]
    [a, b, c, d, e, f, g, h].all Char.isDigit && 1 ≤ month && month ≤ 12 && 1 ≤ day &&
      day ≤ daysIn (decimal [a, b, c, d]) month
  | _ => false

def isClock : List Char → Bool
  | a :: b :: ':' :: c :: d :: rest =>
    [a, b, c, d].all Char.isDigit && decimal [a, b] < 24 && decimal [c, d] < 60 &&
      match rest with
      | [] => true
      | ':' :: e :: f :: rest =>
        e.isDigit && f.isDigit && decimal [e, f] ≤ 60 &&
          match rest with
          | [] => true
          | '.' :: ds => !ds.isEmpty && ds.all Char.isDigit
          | _ => false
      | _ => false
  | _ => false

/-- The form of a time of day with an offset that may be left out. -/
def isOffsetClock (cs : List Char) : Bool :=
  let isZone (c : Char) : Bool := c = 'Z' || c = 'z' || c = '+' || c = '-'
  isClock (cs.takeWhile (!isZone ·)) &&
    match cs.dropWhile (!isZone ·) with
    | [] => true
    | [c] => c = 'Z' || c = 'z'
    | [s, a, b, ':', c, d] =>
      (s = '+' || s = '-') && [a, b, c, d].all Char.isDigit && decimal [a, b] < 24 &&
        decimal [c, d] < 60
    | _ => false

def isMoment (cs : List Char) : Bool :=
  isDate cs || isClock cs ||
    (isDate (cs.take 10) &&
      match cs.drop 10 with
      | c :: rest => (c = 'T' || c = 't' || c = ' ') && isOffsetClock rest
      | [] => false)

/-- The value of a scalar; a bare one that is nothing known is a fault at its start. -/
def Scalar.ofLexeme (l : Lexeme) : Except Nat Scalar :=
  match l.quotation with
  | .bare =>
    if l.text = ['t', 'r', 'u', 'e'] then .ok (.boolean true)
    else if l.text = ['f', 'a', 'l', 's', 'e'] then .ok (.boolean false)
    else if isInteger l.text || isFloat l.text || isMoment l.text then .ok .quantity
    else .error l.start
  | _ => do return .text (← quotedContent l)

end Outdent.Toml
