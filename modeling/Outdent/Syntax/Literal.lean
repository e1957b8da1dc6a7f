import Outdent.Syntax.Gap
import Outdent.Syntax.Escape
import Outdent.Syntax.Input
import Outdent.Text.Identifier
/-! # Text that the grammar asks for

Templates, regular expressions, and the text, names and attribute values of elements are read at
places where the grammar expects them, with rules of their own for what ends them.
-/
namespace Outdent.Syntax

inductive TemplateEnd where
  | closed
  | hole
  | unterminated
deriving DecidableEq

structure TemplateText where
  raw : List Char
  stop : Nat
  rest : Input
  ending : TemplateEnd
  badEscape : Option Nat

namespace TemplateText

/-- Reads template text from byte `n` on. The first characters to be skipped belong to an escape
that was read. -/
def read : (skipped : Nat) → List Char → (n : Nat) → TemplateText
  | skipped + 1, c :: cs, n =>
    let tail := read skipped cs (n + c.utf8Size)
    { tail with raw := c :: tail.raw }
  | 0, '\\' :: cs, n =>
    match Escape.ofText cs with
    | .standsFor _ length =>
      let tail := read length cs (n + 1)
      { tail with raw := '\\' :: tail.raw }
    | .octal length =>
      let tail := read length cs (n + 1)
      { tail with raw := '\\' :: tail.raw, badEscape := some n }
    | .malformed =>
      let tail := read 0 cs (n + 1)
      { tail with raw := '\\' :: tail.raw, badEscape := some n }
  | 0, '\x60' :: cs, n => ⟨[], n, ⟨cs, n + 1⟩, .closed, none⟩
  | 0, '$' :: '\x7b' :: cs, n => ⟨[], n, ⟨cs, n + 2⟩, .hole, none⟩
  | 0, c :: cs, n =>
    let tail := read 0 cs (n + c.utf8Size)
    { tail with raw := c :: tail.raw }
  | _, [], n => ⟨[], n, ⟨[], n⟩, .unterminated, none⟩

def ofInput (i : Input) : TemplateText := read 0 i.text i.position

end TemplateText

structure RegexText where
  rest : Input
  hasRightFlags : Bool

namespace RegexText

/-- The input behind the slash that closes a regular expression. A slash within a class of
characters or behind a backslash does not close it, and it cannot go over a line break. -/
def body? : (inClass isEscaped : Bool) → List Char → (n : Nat) → Option Input
  | _, _, [], _ => none
  | inClass, isEscaped, c :: cs, n =>
    if isLineBreak c then none
    else
      let next := n + c.utf8Size
      if isEscaped then body? inClass false cs next
      else if c = '/' && !inClass then some ⟨cs, next⟩
      else body? (c == '[' || (inClass && c != ']')) (c == '\\') cs next

def areFlags : List Char → Bool
  | [] => true
  | c :: cs =>
    ['d', 'g', 'i', 'm', 's', 'u', 'v', 'y'].contains c && !cs.contains c && areFlags cs

def ofInput? (i : Input) : Option RegexText := do
  let rest ← body? false false i.text i.position
  let (flags, rest) := rest.span Text.isIdentifierPart
  return ⟨rest, areFlags flags⟩

end RegexText

/-- The text between the tags of an element, up to the next tag or hole, and the positions of the
closing signs in it, which have to be written otherwise. -/
structure ElementText where
  rest : Input
  faults : List Nat

def ElementText.read : List Char → (n : Nat) → ElementText
  | [], n => ⟨⟨[], n⟩, []⟩
  | c :: cs, n =>
    if c = '<' ∨ c = '\x7b' then ⟨⟨c :: cs, n⟩, []⟩
    else
      let tail := read cs (n + c.utf8Size)
      if c = '>' ∨ c = '\x7d' then { tail with faults := n :: tail.faults } else tail

def ElementText.ofInput (i : Input) : ElementText := read i.text i.position

/-- The name at the start of an input, in which a hyphen can stand behind the first character. -/
def elementName? (i : Input) : Option (List Char × Input) :=
  match i.text with
  | c :: _ =>
    if Text.isIdentifierStart c then some (i.span fun c => Text.isIdentifierPart c || c == '-')
    else none
  | [] => none

/-- The input behind a quoted attribute value, which knows no escapes and may hold line breaks. -/
def attributeText? (quote : Char) (i : Input) : Option Input :=
  let (_, rest) := (i.drop 1).span (· != quote)
  if rest.text.isEmpty then none else some (rest.drop 1)

end Outdent.Syntax
