import Outdent.Text.Bytes
/-! # Input

The part of a script that is still to be read, with the byte position of its first character.
-/
namespace Outdent.Syntax

structure Input where
  text : List Char
  position : Nat

namespace Input

def ofText (text : List Char) : Input := ⟨text, 0⟩

def drop (count : Nat) (i : Input) : Input :=
  ⟨i.text.drop count, i.position + Text.byteLength (i.text.take count)⟩

/-- The longest start of the input with a property, and what follows it. -/
def span (p : Char → Bool) (i : Input) : List Char × Input :=
  let taken := i.text.takeWhile p
  (taken, i.drop taken.length)

def startsWith (start : List Char) (i : Input) : Bool := start.isPrefixOf i.text

end Input

end Outdent.Syntax
