import Outdent.Syntax.Grammar.Function
/-! # Members and calls

What can follow a value: members, calls, templates, type arguments, and the mark that says that
the value is there.
-/
namespace Outdent.Syntax.Grammar
open Reader

structure ChainScope where
  calls : Bool := true
  computed : Bool := true

def genericAsyncArrow? (g : Grammar) (start : Nat) : Reader (Option Node) := do
  let head ← attempt do
    let types ← typeParameters g false false
    need .openParen
    let given ← parameters g
    need .closeParen
    let result ← optionalResultType g
    need .arrow
    return some (types, given, result)
  match head with
  | none => return none
  | some (types, given, result) =>
    let body ← arrowBody g true (areSimple given)
    return some (← node .arrow start (given ++ body :: types :: result))

/-- Whether a value is a chain that may stop half-way, seen through the marks that say that it is
there. -/
def isOptionalChain : Node → Bool
  | .other .optionalChain _ _ => true
  | .other .nonNull _ (inside :: _) => isOptionalChain inside
  | _ => false

/-- What follows a value with type arguments behind it, and whether more may follow. -/
def behindTypeArguments (g : Grammar) (scope : ChainScope) (start : Nat) (object : Node) :
    Reader (Option (Node × Bool)) := do
  let mayBeAsync := (← get).arrowStart == some start && object.name? == some "async"
  if scope.calls && mayBeAsync then
    match ← genericAsyncArrow? g start with
    | some arrow => return some (arrow, true)
    | none => pure ()
  let types ← typeArguments g
  if scope.calls && (← on .openParen) then
    let given ← arguments g
    let kind : Kind := if object.hasKind .optionalChain then .optionalChain else .call
    return some (← node kind start (object :: given ++ [types]), true)
  if ← on .backquote then return some (← taggedTemplate g object (some types), true)
  if (← on .assign) || (← onWord .asWord) || (← onWord .satisfies) then
    return some (← node .instantiation start [object, types], false)
  fail

/-- The member or call behind a value, and whether more may follow; none if there is none. -/
def memberOrCall? (g : Grammar) (scope : ChainScope) (start : Nat) (object : Node) :
    Reader (Option (Node × Bool)) := do
  let isSuper := object.hasKind .superReference
  let isImport := object.hasKind .importCall
  let isOptional ← if isImport then pure false else take .optionalDot
  let isChain := isOptional || isOptionalChain object
  let memberKind : Kind :=
    if isSuper then .superMember else if isChain then .optionalChain else .member
  let types ←
    if isOptional && (← onTypeArguments) then attempt do
      let types ← typeArguments g
      if ← on .openParen then return some types else return none
    else pure none
  if scope.computed && !isImport then
    if ← take .openBracket then
      let key ← within ({ · with inJoins := true }) (g .expression)
      need .closeBracket
      return some (← node memberKind start [object, key], true)
  if (isOptional || scope.calls) && (← on .openParen) then
    let given ← arguments g
    if isOptional && isSuper then fail
    let kind : Kind := if isChain then .optionalChain else .call
    return some (← node kind start (object :: given ++ types.toList), true)
  if isImport then fail
  if isOptional || (← take .dot) then
    let member ← memberName
    return some (← node memberKind start [object, member], true)
  if isSuper then fail
  if ← on .backquote then return some (← taggedTemplate g object none, true)
  return none

/-- What follows a value, and whether more may follow; none if nothing does. -/
def link? (g : Grammar) (scope : ChainScope) (start : Nat) (object : Node) :
    Reader (Option (Node × Bool)) := do
  let isValue := !object.hasKind .superReference && !object.hasKind .importCall
  if (← on .bang) && !(← afterNewline) then
    unless isValue do fail
    advance
    return some (← node .nonNull start [object], true)
  if isValue && (← onTypeArguments) then
    match ← attempt (behindTypeArguments g scope start object) with
    | some found => return some found
    | none => pure ()
  memberOrCall? g scope start object

def chain (g : Grammar) (scope : ChainScope) (object : Node) : Reader Node := do
  let start := object.start
  let (result, _) ← repeating (object, true) fun (object, goesOn) => do
    if goesOn then link? g scope start object else return none
  return result

end Outdent.Syntax.Grammar
