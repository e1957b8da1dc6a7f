import Outdent.Syntax.Grammar.Arrow
/-! # Operands

The values that operators join: names, literals, templates, arrays, objects, functions, classes,
elements and what stands in parentheses, with their members and calls.
-/
namespace Outdent.Syntax.Grammar
open Reader

def regex : Reader Node := do
  let t ← token
  let rest := (← get).rest
  let input : Input :=
    if t.isMark .slashAssign then ⟨'=' :: rest.text, t.start + 1⟩ else rest
  match RegexText.ofInput? input with
  | none => failAt t.start
  | some regex =>
    unless regex.hasRightFlags do report t.start
    resume regex.rest
    return .other .literal ⟨t.start, regex.rest.position⟩ []

def named (g : Grammar) (start : Nat) (canBeArrow : Bool) : Reader Node := do
  let name ← reference
  if !canBeArrow || (← afterNewline) then return name
  if name.name? == some "async" && (← token).isReference then
    let context ← context
    let next ← ahead
    if context.loopHead && (← onWord .of) && !next.isMark .arrow then
      unless context.awaitingLoopHead do report start
      return name
    let parameter ← binding
    if parameter.name? == some "as" && !(← on .arrow) then
      let type ← g .type
      return ← node .typeCast start [name, type]
    need .arrow
    let body ← arrowBody g true true
    return ← node .arrow start [parameter, body]
  unless ← take .arrow do return name
  if name.name?.any isBarredTarget then report name.start
  let body ← arrowBody g false true
  node .arrow start [name, body]

def asyncOperand? (g : Grammar) (start : Nat) (canBeArrow : Bool) : Reader (Option Node) := do
  unless ← onWord .async do return none
  let word ← token
  if ← onAsyncFunction then
    advance
    return some (← function g start true true false [])
  let next ← ahead
  if canBeArrow && next.isMark .less then
    let found ← attempt do
      advance
      genericAsyncArrow? g start
    if found.isSome then return found
  if canBeArrow && next.isMark .openParen && !next.afterNewline then
    advance
    return some (← parenOrArrow g canBeArrow (some (.identifier word.span word.text)))
  return none

def primary (g : Grammar) : Reader Node := do
  let t ← token
  let start := t.start
  let canBeArrow := (← get).arrowStart == some start
  match ← asyncOperand? g start canBeArrow with
  | some found => return found
  | none => pure ()
  match t.kind with
  | .number | .string => literal
  | .mark .openBracket => array g
  | .mark .openBrace => object g
  | .mark .openParen => parenOrArrow g canBeArrow none
  | .mark .backquote => return .template (← template g false)
  | .mark .slash | .mark .slashAssign => regex
  | .mark .hash => privateName
  | .mark .at =>
    let marks ← decorators g
    classOf g start true false marks
  | .word .thisWord =>
    advance
    return .other .self t.span []
  | .word .nullWord | .word .trueWord | .word .falseWord => literal
  | .word .functionWord => function g start false true false []
  | .word .classWord => classOf g start true false []
  | .word .letWord => named g start canBeArrow
  | .word w =>
    if w.isReserved && !(w == .await && (← context).ambient) then fail
    named g start canBeArrow
  | _ => fail

def importOperand (g : Grammar) (scope : ChainScope) : Reader Node := do
  let start ← here
  needWord .importWord
  if ← take .dot then
    let (text, _) ← spelledName
    if text == "meta" then
      let found ← node .metaProperty start []
      return ← chain g scope found
    unless text == "defer" || text == "source" do fail
  let called ← node .importCall start []
  chain g scope called

def newOperand (g : Grammar) (start : Nat) : Reader Node := do
  needWord .newWord
  if ← take .dot then
    needWord .target
    let context ← context
    let found ← node .metaProperty start []
    unless context.hasTarget || context.inParameters || context.inClass do report start
    return ← chain g { calls := false } found
  let made ← g .newOperand
  if made.hasKind .arrow then return made
  if made.hasKind .optionalChain then failAt made.start
  let types ←
    if ← onTypeArguments then attempt do
      let types ← typeArguments g
      if ← on .openParen then return some types else return none
    else pure none
  unless ← on .openParen do return ← node .newWithoutArguments start [made]
  let given ← arguments g
  let found ← node .newWithArguments start (made :: given ++ types.toList)
  chain g { calls := false } found

def looseTypeArguments? (g : Grammar) : Reader (Option Node) := do
  unless ← onTypeArguments do return none
  attempt do
    let types ← typeArguments g
    if ← onAny [.less, .greater, .plus, .minus, .openParen, .backquote] then return none
    let t ← token
    let startsOperand :=
      t.isReference || t.isLiteralName
        || (t.isName && !t.isWord .inWord && !t.isWord .instanceofWord) || t.mark?.any [.openBracket, .openBrace, .bang, .tilde, .plusPlus, .minusMinus, .hash,
          .at].contains
    if t.afterNewline || !startsOperand then return some types else return none

def memberOperand (g : Grammar) : Reader Node := do
  let start ← here
  if ← onWord .newWord then return ← newOperand g start
  let t ← token
  if t.isWord .superWord then
    advance
    return ← chain g { calls := false } (.other .superReference t.span [])
  if t.isWord .importWord then return ← importOperand g { calls := false }
  let first ← primary g
  if first.hasKind .arrow then return first
  let first ← match ← looseTypeArguments? g with
    | some types => node .instantiation start [first, types]
    | none => pure first
  chain g { calls := false } first

def leftHand (g : Grammar) : Reader Node := do
  let t ← token
  if (← context).elements && t.isMark .less then return ← g (.element .operand)
  if t.isWord .superWord then
    advance
    return ← chain g {} (.other .superReference t.span [])
  if t.isWord .importWord then return ← importOperand g {}
  let callee ← memberOperand g
  if callee.hasKind .arrow then return callee
  let types ←
    if ← onTypeArguments then attempt do
      let types ← typeArguments g
      if ← on .openParen then return some types else return none
    else pure none
  if callee.hasKind .newWithoutArguments && types.isNone then return callee
  unless ← on .openParen do return callee
  let given ← arguments g
  let kind : Kind := if isOptionalChain callee then .optionalChain else .call
  let called ← node kind callee.start (callee :: given ++ types.toList)
  chain g {} called

end Outdent.Syntax.Grammar
