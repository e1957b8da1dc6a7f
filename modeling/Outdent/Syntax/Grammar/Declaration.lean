import Outdent.Syntax.Grammar.Operator
/-! # Declarations

Variables, and the declarations that only give types: interfaces, names of types, enumerations,
namespaces and modules.
-/
namespace Outdent.Syntax.Grammar
open Reader

inductive VariableSort where
  | var
  | lexical
  | constant
deriving DecidableEq

/-- A declared name or pattern, with its type and its initial value. Without a value a constant is
a fault and a pattern fails, except in the head of a loop over something. -/
def declarator (g : Grammar) (sort : VariableSort) (inLoopHead : Bool) : Reader Node := do
  let start ← here
  if sort != .var && (← onWord .letWord) then fail
  let bound ← bindingPattern g
  if bound.name?.isSome then discard <| take .bang
  let type ← optionalAnnotation g
  let annotated ← if type.isEmpty then pure bound else node .annotated start (bound :: type)
  if inLoopHead && ((← onWord .inWord) || (← onWord .of)) then
    return ← node .declarator start [annotated]
  if ← take .assign then
    let value ← g .assignment
    checkNoDefaults value
    return ← node .declarator start [annotated, value]
  unless (← context).ambient do
    if sort = .constant then report start
    else if bound.name?.isNone then failAt start
  node .declarator start [annotated]

/-- Declarators with commas between them. A comma with nothing behind it is a fault. -/
def declarators (g : Grammar) (sort : VariableSort) (inLoopHead : Bool) (wordStart wordStop : Nat) :
    Reader (List Node) := do
  let step : List Node × Nat × Bool → Reader (Option (List Node × Nat × Bool)) :=
    fun (found, last, isOver) => do
      if isOver then return none
      if (← on .semicolon) || (← onEnd) then
        report (if last = wordStart then wordStop else last)
        return none
      let next ← declarator g sort inLoopHead
      let comma ← here
      if ← take .comma then return some (next :: found, comma, false)
      return some (next :: found, comma, true)
  let (found, _) ← repeating ([], wordStart, false) step
  return found.reverse

def skipStatement : Reader Unit := do
  discard <| repeating () fun _ => do
    if ← takeStop then return none
    advance
    return some ()

def variableDeclaration (g : Grammar) (inLoopHead : Bool) : Reader Node := do
  let t ← token
  let sort : VariableSort :=
    match t.word? with
    | some .constWord => .constant
    | some .letWord => .lexical
    | _ => .var
  advance
  if inLoopHead && ((← onWord .inWord) || (← onWord .of)) then
    let isEmptyHead ← foresee do
      advance
      discard <| g .assignment
      on .closeParen
    if isEmptyHead then
      report t.stop
      return ← node .variables t.start []
  let joins := sort != .var || !inLoopHead
  let found ← within (fun c => { c with inJoins := c.inJoins || joins })
    (declarators g sort inLoopHead t.start t.stop)
  node .variables t.start found

/-- A statement that declares variables. Where it does not end, the rest up to the next end is a
fault. -/
def variableStatement (g : Grammar) : Reader Node := do
  let declared ← variableDeclaration g false
  unless ← takeStop do
    report (← here)
    discard <| outcome (g .expression)
    skipStatement
  return declared

def letDeclares : Reader Bool := do
  let next ← ahead
  return (← onWord .letWord) &&
    (next.isMark .openBrace || next.isMark .openBracket ||
      next.word?.any fun w => !w.isKeyword || w == .yield || w == .await)

/-- Variables whose values are released at the end of their block, unless `using` in hand is a name
as any other. -/
def usingVariables? (g : Grammar) (start : Nat) : Reader (Option Node) := do
  let next ← ahead
  if next.afterNewline || !next.isReference then return none
  let t ← token
  advance
  let found ← declarators g .var false t.start t.stop
  for d in found do
    let isNamed := (d.children.head?.bind Node.name?).isSome ||
      d.children.any (Node.hasKind .annotated)
    unless isNamed && d.children.length = 2 do report start
  return some (← node .variables start found)

def interface (g : Grammar) (start : Nat) : Reader Node := do
  let (text, name) ← spelledName
  if isTypeName text then report name.start
  let types ← optionalTypeParameters g true false
  let extended ← if ← takeWord .extendsWord then heritage g else pure []
  if ← onWord .extendsWord then
    report (← here)
    discard <| repeating () fun _ => do
      if (← onEnd) || (← on .openBrace) then return none
      advance
      return some ()
  let members ← typeMembers g
  node .declaration start (types ++ extended ++ members)

def typeAlias (g : Grammar) (start : Nat) : Reader Node := do
  discard name
  let types ← optionalTypeParameters g true false
  need .assign
  let type ← g .type
  needStop
  node .declaration start (types ++ [type])

def enumMember (g : Grammar) : Reader Node := do
  let t ← token
  match t.kind with
  | .string => advance
  | .number =>
    advance
    report t.start
  | .mark .openBracket =>
    advance
    let key ← g .expression
    need .closeBracket
    let isText : Bool :=
      match key with
      | .template body => body.holes.isEmpty
      | _ => key.hasKind .literal
    unless isText do report t.start
  | _ => discard name
  if ← take .assign then
    let value ← g .assignment
    return ← node .typeMember t.start [value]
  unless (← on .comma) || (← on .closeBrace) do
    let position ← here
    advance
    report position
  node .typeMember t.start []

def enumMembers (g : Grammar) : Reader (List Node) :=
  collect do
    if ← on .closeBrace then return none
    let member ← enumMember g
    unless (← take .comma) || (← on .closeBrace) do report (← here)
    return some member

def enumeration (g : Grammar) (start : Nat) : Reader Node := do
  discard name
  need .openBrace
  let members ← enumMembers g
  need .closeBrace
  node .declaration start members

def moduleBlock (g : Grammar) : Reader Node := do
  let start ← here
  need .openBrace
  let items ← collect do
    if ← on .closeBrace then return none
    if ← onEnd then
      report (← here)
      return none
    return some (← g .moduleItem)
  discard <| take .closeBrace
  node .block start items

/-- The name and body of a namespace. The name may have members behind points. -/
def namespaceBody (g : Grammar) : Reader Node := do
  let start ← here
  discard name
  if ← take .dot then
    let inner ← g .namespaceBody
    return ← node .declaration start [inner]
  let body ← moduleBlock g
  node .declaration start [body]

def ambientModule (g : Grammar) (start : Nat) : Reader Node := do
  unless (← onWord .global) || (← token).kind == .string do fail
  advance
  if ← on .openBrace then
    let body ← moduleBlock g
    return ← node .declaration start [body]
  needStop
  node .declaration start []

/-- The declaration of types that a word opens; none if the word is a name as any other. The word is
in hand or was gone over. -/
def typeDeclaration? (g : Grammar) (start : Nat) (marks : List Node) (word : Word)
    (isInHand : Bool) : Reader (Option Node) := do
  let goOver : Reader Unit := if isInHand then advance else pure ()
  let follows ← if isInHand then pure true else pure (← token).isReference
  match word with
  | .abstractWord =>
    if isInHand || ((← onWord .classWord) && !(← afterNewline)) then
      goOver
      return some (← classOf g start false true marks)
    return none
  | .enumWord =>
    unless follows do return none
    goOver
    return some (← enumeration g start)
  | .interface =>
    unless follows do return none
    goOver
    return some (← interface g start)
  | .moduleWord =>
    if ← afterNewline then return none
    goOver
    if (← token).kind == .string then return some (← ambientModule g start)
    unless isInHand || (← token).isReference do return none
    return some (← namespaceBody g)
  | .namespaceWord =>
    unless follows do return none
    goOver
    return some (← namespaceBody g)
  | .typeWord =>
    unless isInHand || (follows && !(← afterNewline)) do return none
    goOver
    return some (← typeAlias g start)
  | _ => return none

/-- What is declared without a body or value behind `declare`; none if nothing is. -/
def ambientDeclaration? (g : Grammar) (start : Nat) (marks : List Node) : Reader (Option Node) :=
  within ({ · with ambient := true }) do
    let t ← token
    match t.word? with
    | none => return none
    | some word =>
      match word with
      | .functionWord => return some (← function g start false false true marks)
      | .classWord => return some (← classOf g start false true marks)
      | .constWord =>
        if (← ahead).isWord .enumWord then
          advance
          advance
          return some (← enumeration g start)
        return some (← variableStatement g)
      | .varWord | .letWord => return some (← variableStatement g)
      | .global => return some (← ambientModule g start)
      | _ => typeDeclaration? g start marks word true

end Outdent.Syntax.Grammar
