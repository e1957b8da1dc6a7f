import Outdent.Syntax.Grammar.Class
/-! # Elements

An element is written as a tag, or as an opening and a closing tag with text, holes and further
elements between them. Within a tag tokens are read by the rules for tags, between tags there are
none, and in a hole there are expressions; so every rule says how the token behind it is read.
-/
namespace Outdent.Syntax.Grammar
open Reader

def tagName : Reader (String × Nat) := do
  let t ← token
  unless t.isName do fail
  advanceInTag
  return (t.text, t.start)

def spacedName : Reader (List String) := do
  let (first, _) ← tagName
  unless ← on .colon do return [first]
  advanceInTag
  let (second, _) ← tagName
  return [first, ":", second]

def elementName : Reader (List String) := do
  let first ← spacedName
  let members ← collect do
    unless ← on .dot do return none
    advanceInTag
    let (member, _) ← tagName
    return some [".", member]
  return first ++ members.flatten

def closeHoleInTag : Reader Unit := do
  unless ← on .closeBrace do fail
  advanceInTag

/-- The value of an attribute. A hole cannot be empty. -/
def attributeValue (g : Grammar) : Reader (List Node) := do
  let t ← token
  match t.kind with
  | .string =>
    advanceInTag
    return []
  | .mark .openBrace =>
    advance
    if ← on .closeBrace then failAt t.start
    let inside ← g .expression
    closeHoleInTag
    return [inside]
  | .mark .less => return [← g (.element .value)]
  | _ => fail

def tagAttribute (g : Grammar) : Reader (List Node) := do
  if ← on .openBrace then
    advance
    need .ellipsis
    let inside ← g .assignment
    closeHoleInTag
    return [inside]
  discard spacedName
  if ← on .assign then
    advanceInTag
    attributeValue g
  else return []

def tagTypeArguments (g : Grammar) : Reader Node := do
  let start ← here
  openTypeArguments
  let found ← angled (g .type)
  unless ← onGreater do fail
  splitMark .greater
  advanceInTag
  node .typeArguments start found

structure OpenedElement where
  /-- The name of the element; the nameless element has none. -/
  name : List String
  children : List Node
  isComplete : Bool

def openingTag (g : Grammar) : Reader OpenedElement := do
  if ← on .greater then return ⟨[], [], false⟩
  let name ← elementName
  let types ←
    if ← on .less then attempt (do return some (← tagTypeArguments g)) else pure none
  let attributes ← collect do
    if ← onAny [.slash, .greater] then return none
    return some (← tagAttribute g)
  let isComplete ← on .slash
  if isComplete then advanceInTag
  unless ← on .greater do fail
  return ⟨name, attributes.flatten ++ types.toList, isComplete⟩

def childHole (g : Grammar) : Reader (List Node) := do
  advance
  discard <| take .ellipsis
  let inside ← if ← on .closeBrace then pure [] else pure [← g .expression]
  unless ← on .closeBrace do fail
  return inside

/-- A closing tag behind its slash, up to its last sign. Where its name is not the one that was
opened, gives the place of the fault. -/
def closingTag (name : List String) (start : Nat) : Reader (Option Nat) := do
  let nameStart ← here
  if ← on .greater then return if name.isEmpty then none else some start
  let closed ← elementName
  unless ← on .greater do fail
  if name.isEmpty then return some start
  return if closed == name then none else some nameStart

def holdMark (mark : Mark) (input : Input) : Reader Unit :=
  let rest := input.drop 1
  hold ⟨⟨.mark mark, input.position, rest.position, false, ""⟩, rest, []⟩ input.position

def holdEnd (position : Nat) : Reader Unit :=
  hold ⟨⟨.endOfText, position, position, false, ""⟩, ⟨[], position⟩, []⟩ position

structure ElementProgress where
  children : List Node
  isClosed : Bool
  mismatch : Option Nat

/-- Reads what stands next between the tags of an element behind the token in hand. The last sign
of the closing tag stays in hand. -/
def childStep (g : Grammar) (name : List String) (read : ElementProgress) :
    Reader (Option ElementProgress) := do
  if read.isClosed then return none
  let text := ElementText.ofInput (← get).rest
  for position in text.faults do report position
  match text.rest.text with
  | [] =>
    holdEnd text.rest.position
    fail
  | c :: _ =>
    if c = '\x7b' then
      holdMark .openBrace text.rest
      let inside ← childHole g
      return some { read with children := inside ++ read.children }
    holdMark .less text.rest
    let s ← get
    if (Scan.inTag s.token.stop s.rest).token.isMark .slash then
      advanceInTag
      advanceInTag
      let mismatch ← closingTag name text.rest.position
      return some { read with isClosed := true, mismatch }
    let child ← g (.element .child)
    return some { read with children := child :: read.children }

def leaveElement : ElementPlace → Reader Unit
  | .operand => advance
  | .value => advanceInTag
  | .child => pure ()

def element (g : Grammar) (place : ElementPlace) : Reader Node := do
  let start ← here
  advanceInTag
  let opened ← openingTag g
  let read ← repeating ⟨[], opened.isComplete, none⟩ (childStep g opened.name)
  let stop := (← token).stop
  leaveElement place
  match read.mismatch with
  | some position =>
    if place = .child then holdEnd stop
    failAt position
  | none => return .other .element ⟨start, stop⟩ (opened.children ++ read.children.reverse)

end Outdent.Syntax.Grammar
