import Outdent.Syntax.Grammar.Template
/-! # Annotations

Where types meet the rest of a script: behind a colon, and in lists of type arguments and type
parameters.
-/
namespace Outdent.Syntax.Grammar
open Reader

def optionalAnnotation (g : Grammar) : Reader (List Node) := do
  if ← take .colon then return [← g .type] else return []

/-- The result of a function behind `mark`: a type, or what the function tells about one of its
parameters. -/
def resultType (g : Grammar) (mark : Mark) : Reader Node := do
  let start ← here
  need mark
  let asserts := (← onWord .asserts) && (← ahead).isReference
  if asserts then advance
  let next ← ahead
  let tests := (← token).isReference && next.isWord .isWord && !next.afterNewline
  unless asserts || tests do return ← g .type
  let parameter ← name
  unless tests do return ← node .type start [parameter]
  needWord .isWord
  let type ← g .type
  node .type start [parameter, type]

def optionalResultType (g : Grammar) : Reader (List Node) := do
  if ← on .colon then return [← resultType g .colon] else return []

def angled (item : Reader Node) : Reader (List Node) :=
  let step : List Node × Bool → Reader (Option (List Node × Bool)) := fun (found, isOver) => do
    if isOver || (← onGreater) then return none
    let next ← item
    if ← take .comma then return some (next :: found, false)
    unless ← onGreater do fail
    return some (next :: found, true)
  do
    let (found, _) ← repeating ([], false) step
    return found.reverse

def onTypeArguments : Reader Bool := onAny [.less, .shiftLeft]

def openTypeArguments : Reader Unit := do
  if ← on .shiftLeft then splitMark .less
  need .less

def typeArguments (g : Grammar) : Reader Node := do
  let start ← here
  openTypeArguments
  let arguments ← angled (g .type)
  needGreater
  node .typeArguments start arguments

def optionalTypeArguments (g : Grammar) : Reader (List Node) := do
  if !(← afterNewline) && (← onTypeArguments) then return [← typeArguments g] else return []

/-- Goes over the modifiers in front of a type parameter. `const` may not stand in every list; `in`
and `out` neither, and stand in this order. -/
def typeParameterModifiers (permitsVariance permitsConst : Bool) : Reader Unit := do
  let isModifier : Word → Bool := fun w =>
    isAccessModifier w || w == .readonly || w == .abstractWord || w == .constWord ||
      w == .override || w == .inWord || w == .outWord
  discard <| repeating ([] : List Word) fun seen => do
    match ← takeModifier isModifier false with
    | none => return none
    | some (w, start) =>
      let isRight :=
        match w with
        | .constWord => permitsConst
        | .inWord => permitsVariance && !seen.contains .inWord && !seen.contains .outWord
        | .outWord => permitsVariance && !seen.contains .outWord
        | _ => false
      unless isRight do report start
      return some (w :: seen)

/-- A type parameter: its name, what it extends, and what it is by default. -/
def typeParameter (g : Grammar) (permitsVariance permitsConst : Bool) : Reader Node := do
  let start ← here
  typeParameterModifiers permitsVariance permitsConst
  let name ← name
  let bound ← if ← takeWord .extendsWord then pure [← g .type] else pure []
  let byDefault ← if ← take .assign then pure [← g .type] else pure []
  node .type start (name :: bound ++ byDefault)

def typeParameters (g : Grammar) (permitsVariance permitsConst : Bool) : Reader Node := do
  let start ← here
  need .less
  let parameters ← angled (typeParameter g permitsVariance permitsConst)
  needGreater
  node .typeParameters start parameters

def optionalTypeParameters (g : Grammar) (permitsVariance permitsConst : Bool) :
    Reader (List Node) := do
  if ← on .less then return [← typeParameters g permitsVariance permitsConst] else return []

end Outdent.Syntax.Grammar
