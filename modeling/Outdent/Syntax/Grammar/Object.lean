import Outdent.Syntax.Grammar.Member
/-! # Arrays and objects -/
namespace Outdent.Syntax.Grammar
open Reader

/-- Items up to a closing mark; the comma behind the last one is kept as a node. -/
def items (close : Mark) (skipsCommas : Bool) (item : Reader Node) : Reader (List Node) :=
  let step : List Node × Bool → Reader (Option (List Node × Bool)) := fun (found, isOver) => do
    if isOver || (← on close) then return none
    if skipsCommas then
      if ← onEnd then return none
      let comma ← token
      if ← take .comma then return some (.other .hole comma.span [] :: found, false)
    let next ← item
    if ← on close then return some (next :: found, true)
    let comma ← token
    need .comma
    if ← on close then return some (.other .trailingComma comma.span [] :: next :: found, true)
    return some (next :: found, false)
  do
    let (found, _) ← repeating ([], false) step
    return found.reverse

def array (g : Grammar) : Reader Node := do
  let start ← here
  need .openBracket
  let found ← items .closeBracket true (spreadable g)
  need .closeBracket
  node .array start found

def onPropertyFollower (isPlain : Bool) : Reader Bool := do
  let t ← token
  return t.isName || t.isLiteralName || (isPlain && t.isMark .closeBrace) ||
    t.mark?.any
      [.openParen, .openBracket, .colon, .comma, .question, .assign, .star, .less].contains

def wordedProperty (g : Grammar) (start : Nat) (word : String) (modifier : Option Nat) :
    Reader Node := do
  match modifier with
  | some position => report position
  | none => pure ()
  let isGenerator ← if word == "async" then take .star else pure false
  let key ← propertyName g
  let use : MethodUse :=
    if word == "get" then .getter else if word == "set" then .setter else .plain
  let (method, hasBody) ← method g start key use { isAsync := word == "async", isGenerator } []
  if word == "get" && !hasBody then report start
  return method

def namedProperty (g : Grammar) (start : Nat) (t : Token) (modifier : Option Nat) :
    Reader Node := do
  let question ← here
  if ← take .question then report question
  if ← onAny [.assign, .comma, .closeBrace] then
    if t.word?.any Word.isReserved then report t.start
    let name : Node := .identifier t.span t.text
    if ← take .assign then
      let value ← within ({ · with inJoins := true }) (g .assignment)
      return ← node .shorthandDefault start [name, value]
    return ← node .shorthand start [name]
  if t.text == "get" || t.text == "set" || t.text == "async" then
    return ← wordedProperty g start t.text modifier
  fail

def property (g : Grammar) : Reader Node := do
  let start ← here
  if ← take .ellipsis then
    let inside ← within ({ · with inJoins := true }) (g .assignment)
    return ← node .spread start [inside]
  if ← take .star then
    let key ← propertyName g
    return (← method g start key .plain { isGenerator := true } []).1
  let isModified ← takeParameterModifier
  let modifier := if isModified then some start else none
  let t ← token
  let key ← propertyName g
  unless ← onPropertyFollower (isPlainName key) do
    report (← here)
    return ← node .shorthand start [.identifier t.span t.text]
  if ← take .colon then
    let value ← within ({ · with inJoins := true }) (g .assignment)
    return ← node .keyValue start [key, value]
  if ← onAny [.openParen, .less] then return (← method g start key .plain {} []).1
  unless isPlainName key do fail
  namedProperty g start t modifier

def object (g : Grammar) : Reader Node := do
  let start ← here
  need .openBrace
  let found ← items .closeBrace false (property g)
  need .closeBrace
  node .object start found

end Outdent.Syntax.Grammar
