import Outdent.Syntax.Grammar.Call
/-! # Patterns and parameters

What a value is bound to: a name, or a pattern that takes an array or an object apart.
-/
namespace Outdent.Syntax.Grammar
open Reader

def bindingPattern (g : Grammar) : Reader Node := do
  if (← token).isName then binding else g .pattern

def withDefault (g : Grammar) (start : Nat) (pattern : Node) : Reader Node := do
  if ← take .assign then
    let value ← within ({ · with inJoins := true }) (g .assignment)
    if (← context).ambient then report start
    node .patternDefault start [pattern, value]
  else return pattern

def patternElement (g : Grammar) : Reader Node := do
  let start ← here
  let pattern ← bindingPattern g
  withDefault g start pattern

/-- A list of parts up to a closing mark, of which one with an ellipsis has to be the last. A comma
behind such a part is a fault at the comma, and a part behind it one at the part. -/
def restLast (close : Mark) (skipsCommas : Bool) (item : Reader (Node × Bool)) :
    Reader (List Node) :=
  let step : List Node × Option Nat × Bool → Reader (Option (List Node × Option Nat × Bool)) :=
    fun (found, rest, isOver) => do
      if isOver || (← onEnd) || (← on close) then return none
      if skipsCommas then
        if ← take .comma then return some (found, rest, false)
      match rest with
      | some position => report position
      | none => pure ()
      let start ← here
      let (next, isRest) ← item
      let rest := if isRest then some start else rest
      if ← on close then return some (next :: found, rest, true)
      let comma ← here
      need .comma
      if isRest && (← on close) then report comma
      return some (next :: found, rest, false)
  do
    let (found, _) ← repeating ([], none, false) step
    return found.reverse

def takeAmbientOption : Reader Unit := do
  if (← context).ambient then discard <| take .question

def arrayPattern (g : Grammar) : Reader Node := do
  let start ← here
  need .openBracket
  let parts ← restLast .closeBracket true do
    let start ← here
    if ← take .ellipsis then
      let inside ← bindingPattern g
      return (← node .rest start [inside], true)
    else return (← patternElement g, false)
  need .closeBracket
  takeAmbientOption
  node .arrayPattern start parts

/-- A property of a pattern for objects, and whether it takes what is left over. -/
def patternProperty (g : Grammar) : Reader (Node × Bool) := do
  let start ← here
  if ← take .ellipsis then
    let inside ← bindingPattern g
    unless inside.name?.isSome do report start
    return (← node .rest start [inside], true)
  let word := (← token).word?
  let key ← propertyName g
  if ← take .colon then
    let value ← patternElement g
    return (← node .patternProperty start [key, value], false)
  unless isPlainName key do fail
  if ← take .assign then
    let value ← within ({ · with inJoins := true }) (g .assignment)
    return (← node .patternProperty start [key, value], false)
  if word.any Word.isReserved then report start
  return (← node .patternProperty start [key], false)

def objectPattern (g : Grammar) : Reader Node := do
  let start ← here
  need .openBrace
  let parts ← restLast .closeBrace false (patternProperty g)
  need .closeBrace
  takeAmbientOption
  node .objectPattern start parts

def pattern (g : Grammar) : Reader Node := do
  if ← on .openBracket then arrayPattern g
  else if ← on .openBrace then objectPattern g
  else fail

def plainParameter (g : Grammar) : Reader Node := do
  let start ← here
  let isModified ← takeParameterModifier
  let patternStart ← here
  let inside ← bindingPattern g
  let mark ← here
  let isOptional ← take .question
  if isOptional && inside.name?.isNone && !(← context).ambient then failAt mark
  let type ← optionalAnnotation g
  let annotated ←
    if type.isEmpty then pure inside else node .annotated patternStart (inside :: type)
  if isOptional && (← on .assign) then report patternStart
  let parameter ← withDefault g patternStart annotated
  if isModified then report start
  return parameter

def restParameter (g : Grammar) : Reader Node := do
  let start ← here
  need .ellipsis
  let inside ← bindingPattern g
  let value ←
    if ← take .assign then
      let value ← g .assignment
      report inside.start
      pure [value]
    else pure []
  let type ← optionalAnnotation g
  let result ← node .rest start (inside :: value ++ type)
  let mark ← here
  if ← take .question then report mark
  return result

def parameters (g : Grammar) : Reader (List Node) :=
  restLast .closeParen false do
    let start ← here
    let marks ← decorators g
    if ← on .ellipsis then
      let inside ← restParameter g
      return (← node .parameter start (marks ++ [inside]), true)
    let inside ← plainParameter g
    return (← node .parameter start (marks ++ [inside]), false)

def parameterPattern? (parameter : Node) : Option Node := parameter.children.getLast?

def parameterName? (parameter : Node) : Option String := do
  let pattern ← parameterPattern? parameter
  match pattern.kind? with
  | some .annotated => pattern.children.head?.bind Node.name?
  | _ => pattern.name?

/-- Whether a parameter stands for an argument, which the type of `this` does not. -/
def isArgument (parameter : Node) : Bool := parameterName? parameter != some "this"

def areSimple (parameters : List Node) : Bool :=
  parameters.all fun p => (parameterName? p).isSome

/-- The parameters of a signature, up to and with the closing parenthesis. None of them can have an
initial value. -/
def signatureParameters (g : Grammar) : Reader (List Node) := do
  let found ← parameters g
  if found.any fun p => (parameterPattern? p).any (Node.hasKind .patternDefault) then fail
  need .closeParen
  return found

end Outdent.Syntax.Grammar
