import Outdent.Syntax.Reader
/-! # Productions and names

The constructs that contain each other are read by productions. A grammar says how each of them is
read; the rules below and in the modules that follow are written for any grammar, and the grammar
of modules is the one in which every production is read by its rule.
-/
namespace Outdent.Syntax

/-- Where an element stands, which tells how the token behind it is read. -/
inductive ElementPlace where
  | operand
  | value
  /-- Between the tags of another element; the last sign stays in hand. -/
  | child
deriving DecidableEq

inductive Production where
  | expression
  | assignment
  | binary
  /-- What follows a left operand, as far as its operators bind more strongly than a bound. -/
  | operators (left : Node) (strength : Nat)
  | unary
  | leftHand
  | newOperand
  | object
  | element (place : ElementPlace)
  | pattern
  | type
  | plainType
  | operatorType
  | block
  | statement
  | listItem
  | moduleItem
  | namespaceBody

abbrev Grammar := Production → Reader Node

namespace Grammar
open Reader

/-- A name in a place where it is no reference, also a word of the grammar. -/
def name : Reader Node := do
  let t ← token
  unless t.isName do fail
  advance
  return .other .name t.span []

/-- A name in a place where it is no reference, with its spelling. -/
def spelledName : Reader (String × Node) := do
  let text := (← token).text
  return (text, ← name)

/-- A name that stands for a variable. A word that only strict code reserves is a fault and reads
on; a word of the grammar proper fails, and so does `await`. -/
def identifier (yieldReads : Bool) : Reader Node := do
  let t ← token
  let context ← context
  match t.word? with
  | none => fail
  | some word =>
    if word.isStrictReserved then report t.start
    match word with
    | .await => unless context.ambient do fail
    | .thisWord | .letWord => pure ()
    | .yield => unless yieldReads do fail
    | _ => if word.isKeyword then fail
    advance
    if context.inClassField && t.text == "arguments" then report t.start
    return .identifier t.span t.text

def reference : Reader Node := do identifier (! (← context).isGenerator)

/-- Whether strict code bars a name from being bound or assigned. -/
def isBarredTarget (name : String) : Bool := name == "eval" || name == "arguments"

def binding : Reader Node := do
  let node ← identifier true
  if node.name?.any isBarredTarget then report node.start
  if (← context).isGenerator && node.name? == some "yield" then report node.start
  return node

def lexicalBinding : Reader Node := do
  if ← onWord .letWord then fail
  binding

def onBinding : Reader Bool := do return (← token).isReference

/-- A name with its hash sign in front, which no blank can part from it. -/
def privateName : Reader Node := do
  let start ← here
  need .hash
  if (← here) != (← behind) then failAt start
  discard name
  node .privateName start []

def memberName : Reader Node := do
  if ← on .hash then privateName else name

def literal : Reader Node := do
  let t ← token
  advance
  return .other .literal t.span []

def propertyName (g : Grammar) : Reader Node := do
  let t ← token
  if t.isLiteralName then literal
  else if t.isName then name
  else if t.isMark .openBracket then
    advance
    let start ← here
    let inside := within ({ · with inJoins := true }) (g .assignment)
    let key ← inside
    if ← on .comma then
      discard <| collect do if ← take .comma then return some (← inside) else return none
      report start
    need .closeBracket
    node .computedKey t.start [key]
  else fail

def propertyText (t : Token) : Option String :=
  if t.isName || t.kind == .string then some t.text else none

def isPlainName (n : Node) : Bool := n.hasKind .name

def isAccessModifier : Word → Bool
  | .publicWord | .privateWord | .protectedWord => true
  | _ => false

/-- Goes over one of some words if what follows shows that it is a modifier and not a name: a name,
a literal name, a bracket, a brace, a star, a hash sign or an ellipsis on the same line. Gives the
word and its place. -/
def takeModifier (isAllowed : Word → Bool) (stopsAtStaticBlock : Bool) :
    Reader (Option (Word × Nat)) := do
  let t ← token
  match t.word? with
  | none => return none
  | some word =>
    unless isAllowed word do return none
    let next ← ahead
    if stopsAtStaticBlock && word == .static && next.isMark .openBrace then return none
    if next.afterNewline then return none
    if next.isName || next.isLiteralName ||
        next.mark?.any [.openBracket, .openBrace, .star, .ellipsis, .hash].contains then
      advance
      return some (word, t.start)
    return none

def takeParameterModifier : Reader Bool := do
  let isModifier := fun w => isAccessModifier w || w == .readonly
  let t ← token
  let next ← ahead
  if t.word?.any isModifier &&
      (next.isName || next.isMark .openBrace || next.isMark .openBracket) then
    discard <| takeModifier isModifier false
    return true
  return false

end Grammar

end Outdent.Syntax
