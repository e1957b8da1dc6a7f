import Outdent.Edit
import Outdent.Syntax.Gap
import Outdent.Syntax.Literal
import Outdent.Syntax.Mark
import Outdent.Syntax.Numeral
import Outdent.Syntax.Word
/-! # Tokens

The token at the start of an input, behind the gap in front of it. Templates, regular expressions
and the text of elements are not tokens: only the grammar knows where they can stand, so their
first character is read as a mark.
-/
namespace Outdent.Syntax

inductive Token.Kind where
  | endOfText
  | word (word : Word)
  | mark (mark : Mark)
  | number
  | string
  /-- No token; the position says what is wrong where. -/
  | invalid (fault : Nat)
deriving DecidableEq

structure Token where
  kind : Token.Kind
  start : Nat
  stop : Nat
  afterNewline : Bool
  text : String
deriving DecidableEq

namespace Token

def span (t : Token) : Span := ⟨t.start, t.stop⟩

def isMark (m : Mark) (t : Token) : Bool := t.kind == .mark m

def isWord (w : Word) (t : Token) : Bool := t.kind == .word w

def word? (t : Token) : Option Word :=
  match t.kind with
  | .word w => some w
  | _ => none

def mark? (t : Token) : Option Mark :=
  match t.kind with
  | .mark m => some m
  | _ => none

def isName (t : Token) : Bool := t.word?.isSome

def isReference (t : Token) : Bool := t.word?.any (! ·.isReserved)

def isLiteralName (t : Token) : Bool := t.kind == .string || t.kind == .number

end Token

structure NameText where
  name : List Char
  rest : Input
  isEscaped : Bool
  faults : List Nat
  broken : Option Nat

namespace NameText

/-- Reads a name with the escapes in it, from byte `n` on. The first characters to be skipped
belong to an escape that was read; the flag tells whether the name is still to start. What an
escape stands for has to suit the inside of a name, also at its start. -/
def read : (skipped : Nat) → (isFirst : Bool) → List Char → (n : Nat) → NameText
  | skipped + 1, isFirst, c :: cs, n => read skipped isFirst cs (n + c.utf8Size)
  | 0, _, '\\' :: 'u' :: cs, n =>
    match unicodeEscape? cs with
    | some (c, length) =>
      let tail := read length false cs (n + 2)
      { tail with
        name := c :: tail.name
        isEscaped := true
        faults := if Text.isIdentifierPart c then tail.faults else n :: tail.faults }
    | none => ⟨[], ⟨cs, n + 2⟩, true, [], some n⟩
  | 0, isFirst, c :: cs, n =>
    if if isFirst then Text.isIdentifierStart c else Text.isIdentifierPart c then
      let tail := read 0 false cs (n + c.utf8Size)
      { tail with name := c :: tail.name }
    else if c = '\\' then ⟨[], ⟨cs, n + 1⟩, true, [], some n⟩
    else ⟨[], ⟨c :: cs, n⟩, false, [], none⟩
  | _, _, [], n => ⟨[], ⟨[], n⟩, false, [], none⟩

def ofInput (i : Input) : NameText := read 0 true i.text i.position

end NameText

structure StringText where
  value : List Char
  rest : Input
  faults : List Nat
  broken : Option Nat

namespace StringText

/-- Reads a string behind its opening quote, from byte `n` on. A string that is not closed on its
line is a fault at its start. The first characters to be skipped belong to an escape that was
read. -/
def read (quote : Char) (start : Nat) : (skipped : Nat) → List Char → (n : Nat) → StringText
  | skipped + 1, c :: cs, n => read quote start skipped cs (n + c.utf8Size)
  | 0, '\\' :: cs, n =>
    match Escape.ofText cs with
    | .standsFor value length =>
      let tail := read quote start length cs (n + 1)
      { tail with value := value ++ tail.value }
    | .octal length =>
      let tail := read quote start length cs (n + 1)
      { tail with value := '\ufffd' :: tail.value, faults := n :: tail.faults }
    | .malformed =>
      let tail := read quote start 0 cs (n + 1)
      { tail with broken := some n }
  | 0, c :: cs, n =>
    if c = quote then ⟨[], ⟨cs, n + c.utf8Size⟩, [], none⟩
    else if c = '\n' ∨ c = '\r' then ⟨[], ⟨c :: cs, n⟩, [start], none⟩
    else
      let tail := read quote start 0 cs (n + c.utf8Size)
      { tail with value := c :: tail.value }
  | _, [], n => ⟨[], ⟨[], n⟩, [start], none⟩

def ofInput (quote : Char) (i : Input) : StringText :=
  read quote i.position 0 (i.text.drop 1) (i.position + 1)

end StringText

structure Scan where
  token : Token
  rest : Input
  faults : List Nat

namespace Scan

/-- The token of a name. A word that the grammar reserves cannot be written with escapes. -/
def ofName (i : Input) (newline : Bool) (gapFaults : List Nat) : Scan :=
  let name := NameText.ofInput i
  let text := String.ofList name.name
  let word := Word.ofName text
  let kind : Token.Kind :=
    match name.broken with
    | some fault => .invalid fault
    | none => if name.isEscaped && word.isReserved then .invalid i.position else .word word
  ⟨⟨kind, i.position, name.rest.position, newline, text⟩, name.rest, gapFaults ++ name.faults⟩

def ofNumeral (i : Input) (newline : Bool) (gapFaults : List Nat) : Scan :=
  let numeral := Numeral.ofInput i
  let kind : Token.Kind :=
    match numeral.broken with
    | some fault => .invalid fault
    | none => .number
  ⟨⟨kind, i.position, numeral.rest.position, newline, ""⟩, numeral.rest,
    gapFaults ++ numeral.faults⟩

def ofString (quote : Char) (i : Input) (newline : Bool) (gapFaults : List Nat) : Scan :=
  let string := StringText.ofInput quote i
  let kind : Token.Kind :=
    match string.broken with
    | some fault => .invalid fault
    | none => .string
  ⟨⟨kind, i.position, string.rest.position, newline, String.ofList string.value⟩, string.rest,
    gapFaults ++ string.faults⟩

/-- The token of a mark; a character that starts nothing is an invalid token. -/
def ofMark (i : Input) (newline : Bool) (gapFaults : List Nat) : Scan :=
  match Mark.ofText i.text with
  | some (mark, length) =>
    let rest := i.drop length
    ⟨⟨.mark mark, i.position, rest.position, newline, ""⟩, rest, gapFaults⟩
  | none =>
    let rest := i.drop 1
    ⟨⟨.invalid i.position, i.position, rest.position, newline, ""⟩, rest, gapFaults⟩

/-- The first token of an input, which follows a token that ends at `previousStop`. The end of the
text stands where the last token ends. -/
def ofInput (previousStop : Nat) (input : Input) : Scan :=
  let gap := Gap.ofInput input
  let i := gap.rest
  match i.text with
  | [] => ⟨⟨.endOfText, previousStop, previousStop, gap.newline, ""⟩, i, gap.faults⟩
  | c :: cs =>
    if c = '\\' || Text.isIdentifierStart c then ofName i gap.newline gap.faults
    else if c.isDigit || (c = '.' && cs.head?.any Char.isDigit) then
      ofNumeral i gap.newline gap.faults
    else if c = '"' || c = '\'' then ofString c i gap.newline gap.faults
    else ofMark i gap.newline gap.faults

def tagMark? : Char → Option Mark
  | '<' => some .less
  | '>' => some .greater
  | '/' => some .slash
  | '=' => some .assign
  | _ => none

/-- The first token of an input within the tag of an element. Names may hold hyphens, strings know
no escapes, and some signs always stand alone. -/
def inTag (previousStop : Nat) (input : Input) : Scan :=
  let gap := Gap.ofInput input
  let i := gap.rest
  let token := fun (kind : Token.Kind) (text : List Char) (rest : Input) =>
    (⟨⟨kind, i.position, rest.position, gap.newline, String.ofList text⟩, rest, gap.faults⟩ : Scan)
  match elementName? i with
  | some (name, rest) => token (.word (Word.ofName (String.ofList name))) name rest
  | none =>
    match i.text with
    | c :: _ =>
      match tagMark? c with
      | some mark => token (.mark mark) [] (i.drop 1)
      | none =>
        if c = '"' || c = '\'' then
          match attributeText? c i with
          | some rest => token .string [] rest
          | none => token (.invalid i.position) [] (i.drop 1)
        else ofInput previousStop input
    | [] => ofInput previousStop input

end Scan

end Outdent.Syntax
