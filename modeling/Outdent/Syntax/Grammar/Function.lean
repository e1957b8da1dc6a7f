import Outdent.Syntax.Grammar.Target
/-! # Functions

What all functions share: type parameters, parameters, the type of the result, and a body, which
starts a new place for labels, loops and `await`.
-/
namespace Outdent.Syntax.Grammar
open Reader

structure FunctionSort where
  isAsync : Bool := false
  isGenerator : Bool := false

def checkDirective (simple : Bool) : Reader Unit := do
  let next ← ahead
  if !simple && next.kind == .string && next.text == "use strict" &&
      next.stop == next.start + 12 then report next.start

def functionBody (g : Grammar) (sort : FunctionSort) (isArrow simple : Bool) : Reader Node := do
  checkDirective simple
  let labels := (← get).labels
  modify ({ · with labels := [] })
  let body ← within (fun c =>
    { c with
      isAsync := sort.isAsync
      isGenerator := sort.isGenerator
      inFunction := true
      hasTarget := c.hasTarget || !isArrow
      inParameters := false
      inClassField := c.inClassField && isArrow
      inStaticBlock := false
      breakable := false
      continuable := false
      inBranch := false
      colonDue := false
      inJoins := true }) (g .block)
  modify ({ · with labels := labels })
  return body

def arrowBody (g : Grammar) (isAsync simple : Bool) : Reader Node := do
  if ← on .openBrace then functionBody g { isAsync } true simple
  else
    within (fun c => { c with isAsync, isGenerator := false, inParameters := false })
      (g .assignment)

/-- A function from its type parameters on: its parts, and whether it has a body. The reader of the
parameters stops at the closing parenthesis. -/
def functionRest (g : Grammar) (marks : List Node) (sort : FunctionSort)
    (given : Reader (List Node)) : Reader (List Node × Bool) :=
  within (fun c => { c with isAsync := sort.isAsync, isGenerator := sort.isGenerator }) do
    let types ← optionalTypeParameters g false true
    need .openParen
    let parameters ← within (fun c => { c with inParameters := true, inFunction := false }) given
    need .closeParen
    let result ← optionalResultType g
    if !(← on .openBrace) && (← takeStop) then
      for parameter in parameters do
        match parameterPattern? parameter with
        | some pattern => if pattern.hasKind .patternDefault then report pattern.start
        | none => pure ()
      return (parameters ++ marks ++ types ++ result, false)
    let body ← functionBody g sort false (areSimple parameters)
    return (parameters ++ marks ++ body :: types ++ result, true)

/-- A function whose word is in hand; it starts where `async` does, if that stands before it. -/
def function (g : Grammar) (start : Nat) (isAsync isExpression needsName : Bool)
    (marks : List Node) : Reader Node := do
  needWord .functionWord
  let isGenerator ← take .star
  let named : Reader Node :=
    if isExpression then within ({ · with isAsync, isGenerator }) binding else binding
  let name ← if needsName || (← onBinding) then pure [← named] else pure []
  let (parts, _) ← within ({ · with inClassField := false, colonDue := false })
    (functionRest g marks { isAsync, isGenerator } (parameters g))
  let kind : Kind := if isExpression then .functionExpression else .declaration
  node kind (startWith marks start) (name ++ parts)

def onAsyncFunction : Reader Bool := do
  let next ← ahead
  return (← onWord .async) && next.isWord .functionWord && !next.afterNewline

inductive MethodUse where
  | plain
  | getter
  | setter
deriving DecidableEq

/-- Parameters of a method, which have to suit its use. Faults are at the key. -/
def methodParameters (g : Grammar) (use : MethodUse) (keyStart : Nat) : Reader (List Node) := do
  let found ← parameters g
  let count := (found.filter isArgument).length
  if use = .getter && count != 0 then report keyStart
  if use = .setter && count != 1 then report keyStart
  return found

def method (g : Grammar) (start : Nat) (key : Node) (use : MethodUse) (sort : FunctionSort)
    (marks : List Node) : Reader (Node × Bool) :=
  within ({ · with inClassField := false }) do
    let (parts, hasBody) ← functionRest g marks sort (methodParameters g use key.start)
    return (← node .method start (key :: parts), hasBody)

end Outdent.Syntax.Grammar
