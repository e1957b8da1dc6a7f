import Outdent.Syntax.Grammar.Operand
/-! # Operators

Operands with operators in front of, behind and between them, up to the expressions that commas
join. An operator that joins two operands takes the operands next to it before a weaker one does.
-/
namespace Outdent.Syntax.Grammar
open Reader

/-- What awaits a value, behind its word `t`. Outside of asynchronous functions `await` in front of
the end of an expression is a name that a module bars. -/
def awaitBehind (g : Grammar) (t : Token) : Reader Node := do
  if ← on .star then fail
  let context ← context
  let endsHere := (← onStop) || (← onAny [.closeParen, .closeBracket, .comma])
  if !context.isAsync && endsHere then
    report t.start
    return .identifier t.span t.text
  if context.inFunction && !context.isAsync then report t.start
  if context.inParameters && !context.inFunction then report t.start
  let inside ← g .unary
  node .awaitExpression t.start [inside]

def isPrefixOperator (t : Token) : Bool :=
  t.isMark .plus || t.isMark .minus || t.isMark .tilde || t.isMark .bang ||
    t.isWord .delete || t.isWord .void || t.isWord .typeof

/-- An operator in front of an operand. An operand that cannot be read is reported and taken as
missing. Only members can be deleted. -/
def prefixed (g : Grammar) (operator : Token) : Reader Node := do
  advance
  let operand ←
    match ← outcome (g .unary) with
    | .ok operand => pure operand
    | .error position =>
      report position
      pure (.other .missing ⟨position, position⟩ [])
  if operator.isWord .delete then
    let target := if operand.hasKind .parenthesised then operand.children.head?.getD operand
      else operand
    unless target.hasKind .member || target.hasKind .superMember || target.hasKind .optionalChain do
      report target.start
  node .unary operator.start [operand]

def asserted (g : Grammar) (start : Nat) : Reader Node := do
  need .less
  if ← takeWord .constWord then
    needGreater
    let operand ← g .unary
    return ← node .constCast start [operand]
  let type ← g .type
  needGreater
  let operand ← g .unary
  node .asserted start [type, operand]

def unary (g : Grammar) : Reader Node := do
  let t ← token
  if !(← context).elements && t.isMark .less then return ← asserted g t.start
  if t.isMark .plusPlus || t.isMark .minusMinus then
    advance
    let operand ← g .unary
    checkTarget false operand
    return ← node .update t.start [operand]
  if isPrefixOperator t then return ← prefixed g t
  if t.isWord .await then
    advance
    return ← awaitBehind g t
  let operand ← leftHand g
  if operand.hasKind .arrow || (← afterNewline) then return operand
  if ← onAny [.plusPlus, .minusMinus] then
    checkTarget false operand
    advance
    return ← node .update t.start [operand]
  return operand

def operatorStrength? : Reader (Option Nat) := do
  let t ← token
  match t.kind with
  | .mark m => return m.strength?
  | .word .instanceofWord => return some Mark.wordStrength
  | .word .inWord => return if (← context).inJoins then some Mark.wordStrength else none
  | _ => return none

def joinedKind (operator : Token) : Kind :=
  if operator.isMark .questions then .nullish
  else if operator.isMark .pipes || operator.isMark .ampersands then .logical
  else .binary

/-- Reports operands of `??` that are joined by `||` or `&&`, and the other way round. -/
def checkMixture (operator : Token) (operands : List Node) : Reader Unit := do
  for operand in operands do
    match joinedKind operator with
    | .nullish => if operand.hasKind .logical then report operand.start
    | .logical => if operand.hasKind .nullish then report operand.start
    | _ => pure ()

/-- What follows a left operand, as far as it binds more strongly than `bound`. -/
def operators (g : Grammar) (left : Node) (bound : Nat) : Reader Node := do
  let start := left.start
  let t ← token
  if bound < Mark.wordStrength && !t.afterNewline then
    if t.isWord .asWord then
      advance
      if ← takeWord .constWord then
        let cast ← node .constCast start [left]
        return ← g (.operators cast bound)
      let type ← g .type
      let cast ← node .typeCast start [left, type]
      return ← g (.operators cast bound)
    if t.isWord .satisfies then
      advance
      let type ← g .type
      let cast ← node .satisfied start [left, type]
      return ← g (.operators cast bound)
  match ← operatorStrength? with
  | none => return left
  | some strength =>
    if strength ≤ bound then return left
    advance
    let isPower := t.isMark .starStar
    if isPower && (left.hasKind .unary || left.hasKind .awaitExpression) then fail
    let operand ← g .unary
    let right ← g (.operators operand (if isPower then strength - 1 else strength))
    checkMixture t [left, right]
    let joined ← node (joinedKind t) start [left, right]
    g (.operators joined bound)

/-- Operands joined by operators. Where the first operand cannot be read but an operator is in
hand, it is taken as missing and the operator is reported; a slash there opens a regular
expression instead. -/
def binary (g : Grammar) : Reader Node := do
  match ← outcome (unary g) with
  | .ok first =>
    if first.hasKind .arrow then return first
    operators g first 0
  | .error position =>
    let t ← token
    let isOperator := t.mark?.any (fun m => m.strength?.isSome && m != .slash) ||
      t.isWord .inWord || t.isWord .instanceofWord
    unless isOperator do failAt position
    report t.start
    operators g (.other .missing ⟨position, position⟩ []) 0

def conditional (g : Grammar) : Reader Node := do
  let start ← here
  let test ← binary g
  if test.hasKind .arrow then return test
  unless ← take .question do return test
  branches g start test

def yielded (g : Grammar) (start : Nat) : Reader Node := do
  let context ← context
  advance
  if context.inParameters && !context.inFunction then failAt start
  let t ← token
  let startsOperand := t.isLiteralName ||
    t.word?.any (fun w => !(w == .inWord || w == .instanceofWord || w == .of)) ||
    t.mark?.any [.openParen, .openBracket, .openBrace, .plus, .minus, .bang, .tilde, .plusPlus,
      .minusMinus, .less, .backquote, .at, .hash, .slash, .slashAssign, .star].contains
  if (← onStop) || !startsOperand then return ← node .yieldExpression start []
  discard <| take .star
  let inside ← g .assignment
  node .yieldExpression start [inside]

def genericArrow? (g : Grammar) (rest : Reader Node) : Reader (Option Node) :=
  within ({ · with colonDue := false }) <| attempt do
    let start ← here
    let types ← typeParameters g false true
    let arrow ← rest
    unless arrow.hasKind .arrow do fail
    return some (.other .arrow ⟨start, arrow.range.stop⟩ (arrow.children ++ [types]))

def startsArrow (t : Token) : Bool :=
  t.isMark .openParen || t.isWord .yield || t.word?.any (! ·.isKeyword)

/-- An expression without a comma that no type parameters stand in front of. -/
def plainAssignment (g : Grammar) : Reader Node := do
  let t ← token
  match t.kind with
  | .invalid fault => failAt fault
  | _ => pure ()
  if t.isWord .yield && (← context).isGenerator then return ← yielded g t.start
  modify ({ · with arrowStart := if startsArrow t then some t.start else none })
  let target ← conditional g
  match target.kind? with
  | some .arrow | some .conditional | some .binary | some .logical | some .nullish
  | some .unary | some .update => return target
  | _ => assignmentTo g t.start target

def assignment (g : Grammar) : Reader Node := do
  if (← on .less) && (← ahead).isName then
    match ← genericArrow? g (plainAssignment g) with
    | some arrow => return arrow
    | none => pure ()
  plainAssignment g

def expression (g : Grammar) : Reader Node := do
  let start ← here
  let first ← g .assignment
  unless ← on .comma do return first
  let others ← collect do if ← take .comma then return some (← g .assignment) else return none
  node .sequence start (first :: others)

end Outdent.Syntax.Grammar
