import Outdent.Syntax.Grammar.Element
/-! # Parentheses and arrows

What stands in parentheses is an expression or the parameters of an arrow function, and only what
follows tells which. Everything that can only be a parameter is read as one at once; everything
else is read as an expression and judged as a pattern when an arrow turns up.
-/
namespace Outdent.Syntax.Grammar
open Reader

structure ParenItem where
  start : Nat
  isSpread : Bool
  isPattern : Bool
  inside : Node

def ParenItem.node (i : ParenItem) : Node :=
  if i.isSpread then .other .spread ⟨i.start, i.inside.range.stop⟩ [i.inside] else i.inside

def branches (g : Grammar) (start : Nat) (test : Node) : Reader Node := do
  let first ← within
    (fun c => { c with inBranch := true, colonDue := true, inJoins := true }) (g .assignment)
  need .colon
  let second ← within (fun c => { c with inBranch := true, colonDue := false }) (g .assignment)
  node .conditional start [test, first, second]

def assignmentTo (g : Grammar) (start : Nat) (target : Node) : Reader Node := do
  let t ← token
  match t.mark? with
  | some .assign =>
    judge .target target
    advance
    let value ← g .assignment
    node .assignment start [target, value]
  | some mark =>
    if mark.isCompoundAssignment then
      unless isSimpleTarget target do report target.start
      unless isAssignable target do failAt target.start
      advance
      let value ← g .assignment
      node .compoundAssignment start [target, value]
    else return target
  | none => return target

/-- The expression of an item. A name is read without a question mark behind it, which may make a
parameter optional. -/
def itemExpression (g : Grammar) : Reader (Bool × Node) := do
  let start ← here
  let isSpread ← on .ellipsis
  let isReference ←
    if isSpread then pure (← ahead).isReference else pure (← token).isReference
  if isReference then
    discard <| take .ellipsis
    if isSpread then return (true, ← within ({ · with inJoins := true }) (g .binary))
    let operand ← g .binary
    return (false, ← assignmentTo g start operand)
  discard <| take .ellipsis
  let inside ← within ({ · with inJoins := true }) (g .assignment)
  return (isSpread, inside)

def itemOption (g : Grammar) (start : Nat) (isSpread : Bool) (inside : Node) :
    Reader (Bool × Node) := do
  unless ← on .question do return (false, inside)
  let next ← ahead
  if next.mark?.any [.comma, .colon, .closeParen, .assign].contains then
    let mark ← here
    advance
    if isSpread then report mark
    unless inside.name?.isSome do failAt start
    return (true, inside)
  if isSpread then return (false, inside)
  advance
  return (false, ← branches g inside.start inside)

def parenItem (g : Grammar) : Reader ParenItem := do
  let start ← here
  modify ({ · with arrowStart := some start })
  let isModified ← takeParameterModifier
  let itemStart ← here
  let (isSpread, inside) ← itemExpression g
  let (isOptional, inside) ← itemOption g itemStart isSpread inside
  if isOptional || (← on .colon) then
    judge .parameter inside
    let type ← optionalAnnotation g
    let annotated ← node .annotated itemStart (inside :: type)
    let pattern ←
      if ← take .assign then
        let value ← g .assignment
        node .patternDefault itemStart [annotated, value]
      else pure annotated
    if isModified then report start
    return ⟨itemStart, isSpread, true, pattern⟩
  if isModified then report start
  return ⟨itemStart, isSpread, false, inside⟩

def parenItems (g : Grammar) : Reader (List ParenItem × Option Nat) :=
  let step : List ParenItem × Option Nat × Bool →
      Reader (Option (List ParenItem × Option Nat × Bool)) := fun (found, _, isOver) => do
    if isOver || (← onEnd) || (← on .closeParen) then return none
    let next ← parenItem g
    if ← on .closeParen then return some (next :: found, none, true)
    let comma ← here
    need .comma
    if ← on .closeParen then return some (next :: found, some comma, true)
    return some (next :: found, none, false)
  do
    need .openParen
    let (found, comma, _) ← repeating ([], none, false) step
    need .closeParen
    return (found.reverse, comma)

/-- Judges items as parameters. Only the last can have an ellipsis, and no comma stands behind such
a one. -/
def judgeParameters (comma : Option Nat) : List ParenItem → Reader Unit
  | [] => pure ()
  | [last] => do
    if last.isSpread then
      if last.inside.hasKind .assignment then report last.start
      match comma with
      | some position => report position
      | none => pure ()
    unless last.isPattern do judge .parameter last.inside
  | item :: rest => do
    if item.isSpread then report item.start
    else unless item.isPattern do judge .parameter item.inside
    judgeParameters comma rest

def areSimpleItems (items : List ParenItem) : Bool :=
  items.all fun i =>
    let bound := if i.inside.hasKind .annotated then i.inside.children.head? else some i.inside
    !i.isSpread && (bound.bind Node.name?).isSome

def arrowOf (g : Grammar) (start : Nat) (isAsync : Bool) (items : List ParenItem)
    (comma : Option Nat) (result : List Node) : Reader Node := do
  judgeParameters comma items
  let body ← arrowBody g isAsync (areSimpleItems items)
  node .arrow start (items.map ParenItem.node ++ body :: result)

def defaultsOf (n : Node) : List Nat :=
  if n.hasKind .object then (n.children.filter (Node.hasKind .shorthandDefault)).map Node.start
  else []

/-- What items are that no arrow follows: a call of a function named `async`, or an expression in
parentheses. -/
def parenthesised (start : Nat) (asyncName : Option Node) (items : List ParenItem) :
    Reader Node := do
  for item in items do
    unless item.isPattern do
      for position in defaultsOf item.inside do report position
  match items.find? ParenItem.isPattern with
  | some item => failAt item.start
  | none => pure ()
  match asyncName with
  | some name => node .call start (name :: items.map ParenItem.node)
  | none =>
    match items.find? ParenItem.isSpread with
    | some item => if items.isEmpty then failAt start else failAt item.inside.start
    | none => pure ()
    match items with
    | [] => failAt start
    | [item] => node .parenthesised start [item.inside]
    | _ =>
      let inside := items.map ParenItem.inside
      let range : Span :=
        ⟨(inside.head?.map Node.start).getD start,
          ((inside.getLast?.map Node.range).getD ⟨start, start⟩).stop⟩
      node .parenthesised start [.other .sequence range inside]

def onOperator : Reader Bool := do
  return (← token).mark?.any fun m => m.strength?.isSome

/-- Items in parentheses, and the arrow function that follows from them if there is one. Behind
`async` the expression starts at that name. -/
def parenOrArrow (g : Grammar) (canBeArrow : Bool) (asyncName : Option Node) : Reader Node := do
  let start ← match asyncName with
    | some name => pure name.start
    | none => here
  let isAsync := asyncName.isSome
  let (items, comma) ←
    within (fun c => { c with colonDue := false, inJoins := true }) (parenItems g)
  let context ← context
  if context.inBranch && (← on .colon) then
    let found ← attempt do
      let result ← resultType g .colon
      need .arrow
      let arrow ← arrowOf g start isAsync items comma [result]
      if context.colonDue && !(← on .colon) then fail
      return some arrow
    match found with
    | some arrow => return arrow
    | none => pure ()
  let result ←
    if !context.colonDue && (← on .colon) then attempt do
      let result ← resultType g .colon
      if ← on .arrow then return some result else return none
    else pure none
  unless items.any ParenItem.isPattern || result.isSome || (← on .arrow) do
    return ← parenthesised start asyncName items
  if ← afterNewline then failAt start
  unless canBeArrow do failAt start
  need .arrow
  let hasBlock ← on .openBrace
  let arrow ← arrowOf g start isAsync items comma result.toList
  if hasBlock && (← onOperator) then
    report (← here)
    g (.operators arrow 0)
  else return arrow

end Outdent.Syntax.Grammar
