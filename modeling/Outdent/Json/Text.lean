/-! # Text in JSON

A string in JSON stands between quotes. A quote and a backslash are escaped, the control
characters with a short escape take it, the other control characters are written with four
hexadecimal digits, and every other character stands for itself.
-/
namespace Outdent.Json

def hexDigit (n : Nat) : Char := "0123456789abcdef".toList.getD n '0'

def escape (c : Char) : List Char :=
  match c with
  | '"' => ['\\', '"']
  | '\\' => ['\\', '\\']
  | '\n' => ['\\', 'n']
  | '\r' => ['\\', 'r']
  | '\t' => ['\\', 't']
  | c =>
    if c.toNat = 8 then ['\\', 'b']
    else if c.toNat = 12 then ['\\', 'f']
    else if c.toNat < 32 then
      ['\\', 'u', '0', '0', hexDigit (c.toNat / 16), hexDigit (c.toNat % 16)]
    else [c]

def quote (text : List Char) : List Char := '"' :: text.flatMap escape ++ ['"']

end Outdent.Json
