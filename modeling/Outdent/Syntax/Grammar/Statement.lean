import Outdent.Syntax.Grammar.Declaration
/-! # Statements

Control flow, blocks, labels, and the expressions and declarations between them.
-/
namespace Outdent.Syntax.Grammar
open Reader

def parenthesisedTest (g : Grammar) : Reader Node := do
  need .openParen
  let test ← within ({ · with inJoins := true }) (g .expression)
  need .closeParen
  return test

def loopBody (g : Grammar) : Reader Node :=
  within ({ · with breakable := true, continuable := true }) (g .statement)

def block (g : Grammar) : Reader Node := do
  let start ← here
  need .openBrace
  let items ← collect do
    if ← on .closeBrace then return none
    if ← onEnd then
      report (← here)
      return none
    return some (← g .listItem)
  discard <| take .closeBrace
  node .block start items

/-- A jump out of a loop or to the next round of it. The loop has to be there, and so has its label
if one is named. -/
def jump (t : Token) : Reader Node := do
  advance
  let label ← if ← takeStop then pure none
    else
      let label ← token
      discard <| identifier true
      needStop
      pure (some label.text)
  let context ← context
  let labels := (← get).labels
  let isKnown := label.all labels.contains
  let isPlaced := if t.isWord .breakWord then label.isSome || context.breakable
    else context.continuable
  unless isKnown && isPlaced do report t.start
  node .statement t.start []

def ifStatement (g : Grammar) (start : Nat) : Reader Node := do
  advance
  let test ← parenthesisedTest g
  let first ← g .statement
  let second ← if ← takeWord .elseWord then pure [← g .statement] else pure []
  node .statement start (test :: first :: second)

def returnStatement (g : Grammar) (start : Nat) : Reader Node := do
  advance
  let value ←
    if ← onStop then pure []
    else pure [← within ({ · with inJoins := true }) (g .expression)]
  needStop
  unless (← context).inFunction do report start
  node .statement start value

/-- The cases of a switch up to its closing brace. Only one of them can be the default. -/
def switchCases (g : Grammar) : Reader (List Node) := do
  let (found, _) ← repeating ([], false) fun (found, hasDefault) => do
    let t ← token
    unless t.isWord .caseWord || t.isWord .defaultWord do return none
    advance
    let test ← if t.isWord .caseWord then pure [← g .expression] else pure []
    let isDefault := t.isWord .defaultWord
    if isDefault && hasDefault then fail
    need .colon
    let items ← collect do
      if (← onEnd) || (← on .closeBrace) || (← onWord .caseWord) || (← onWord .defaultWord) then
        return none
      return some (← g .listItem)
    let next ← node .group t.start (test ++ items)
    return some (next :: found, hasDefault || isDefault)
  return found.reverse

def switchStatement (g : Grammar) (start : Nat) : Reader Node := do
  advance
  let test ← parenthesisedTest g
  need .openBrace
  let cases ← within ({ · with breakable := true }) (switchCases g)
  need .closeBrace
  node .statement start (test :: cases)

def catchClause (g : Grammar) : Reader (List Node) := do
  unless ← takeWord .catchWord do return []
  let parameter ←
    if ← take .openParen then
      let bound ← bindingPattern g
      let type ← optionalAnnotation g
      need .closeParen
      pure (bound :: type)
    else pure []
  return parameter ++ [← g .block]

def finallyClause (g : Grammar) : Reader (List Node) := do
  if ← takeWord .finallyWord then return [← g .block] else return []

def tryStatement (g : Grammar) (start : Nat) : Reader Node := do
  advance
  let body ← g .block
  let position ← here
  let caught ← catchClause g
  let finished ← finallyClause g
  if caught.isEmpty && finished.isEmpty then report position
  node .statement start (body :: caught ++ finished)

def strayClause (start : Nat) (clauses : Reader (List Node)) : Reader Node := do
  report start
  discard <| outcome clauses
  node .missing start []

inductive LoopHead where
  | counted (parts : List Node)
  | over (isValues : Bool) (target source : Node)

def countedHead (g : Grammar) (first : List Node) : Reader LoopHead := do
  let inside := within ({ · with inJoins := true }) (g .expression)
  let test ← if ← on .semicolon then pure [] else pure [← inside]
  need .semicolon
  let step ← if ← on .closeParen then pure [] else pure [← inside]
  return .counted (first ++ test ++ step)

def headOver (g : Grammar) (target : Node) : Reader LoopHead := do
  let isValues ← onWord .of
  advance
  let source ← within ({ · with inJoins := true })
    (g (if isValues then .assignment else .expression))
  return .over isValues target source

/-- Reports the variables of a loop over something that are more than one, that have a value, or
that have a type. -/
def checkLoopVariables (declared : Node) : Reader Unit := do
  match declared.children with
  | [only] =>
    if only.children.length > 1 then report only.start
    if only.children.any (Node.hasKind .annotated) then report only.start
  | _ :: others => for other in others do report other.start
  | [] => pure ()

def headWithVariables (g : Grammar) : Reader LoopHead := do
  let declared ← within ({ · with inJoins := false }) (variableDeclaration g true)
  if (← onWord .of) || (← onWord .inWord) then
    checkLoopVariables declared
    return ← headOver g declared
  need .semicolon
  countedHead g [declared]

/-- Whether the head of a loop starts with a variable that is released with its round. -/
def onUsingHead : Reader Bool := do
  let next ← ahead
  return (← onWord .using) && next.isReference && !next.afterNewline && !next.isWord .of

def loopHead (g : Grammar) : Reader LoopHead := do
  if (← onWord .constWord) || (← onWord .varWord) || (← letDeclares) then
    return ← headWithVariables g
  if ← onUsingHead then
    let start ← here
    advance
    let name ← binding
    let declared ← node .variables start [name]
    unless ← onWord .of do fail
    return ← headOver g declared
  if ← take .semicolon then return ← countedHead g []
  let first ← within ({ · with inJoins := false }) (g .expression)
  let isKeys ← onWord .inWord
  if isKeys || (← onWord .of) then
    judge .target first
    if isKeys && (first.hasKind .object || first.hasKind .array) then report first.start
    return ← headOver g first
  need .semicolon
  checkNoDefaults first
  countedHead g [first]

def forStatement (g : Grammar) (start : Nat) : Reader Node := do
  advance
  let position ← here
  let awaits ← takeWord .await
  need .openParen
  let head ← within ({ · with loopHead := true, awaitingLoopHead := awaits }) (loopHead g)
  need .closeParen
  let body ← loopBody g
  match head with
  | .counted parts =>
    if awaits then failAt position
    node .statement start (parts ++ [body])
  | .over isValues target source =>
    if awaits && !isValues then failAt position
    node .statement start [target, source, body]

def labelled (g : Grammar) (start : Nat) (label : String) : Reader Node := do
  let isRepeated := (← get).labels.contains label
  modify fun s => { s with labels := label :: s.labels }
  let body ← within ({ · with breakable := true }) do
    if ← onWord .functionWord then
      let position ← here
      let declared ← function g position false false true []
      report position
      return declared
    g .statement
  if isRepeated then report start
  modify fun s => { s with labels := s.labels.erase label }
  node .statement start [body]

/-- What follows an expression that is a statement by itself: its end, or more operands, which are
a fault. -/
def endExpression (g : Grammar) (start : Nat) (found : Node) : Reader Node := do
  if ← takeStop then return ← node .statement start [found]
  unless ← onOperator do fail
  report (← here)
  let joined ← g (.operators found 0)
  node .statement start [joined]

def wordStatement (g : Grammar) (name : String) (found : Node) (marks : List Node) :
    Reader Node := do
  let start := found.start
  let word := Word.ofName name
  if word == .interface && (← afterNewline) then
    report start
    discard takeStop
    return ← node .statement start [found]
  let declared ←
    match word with
    | .declareWord => ambientDeclaration? g start marks
    | .global =>
      if ← on .openBrace then
        let body ← moduleBlock g
        pure (some (← node .declaration start [body]))
      else pure none
    | _ => typeDeclaration? g start marks word false
  match declared with
  | some declared => return declared
  | none => pure ()
  if word == .publicWord || word == .static || word == .abstractWord then
    if ← takeWord .interface then
      report start
      return ← interface g start
  endExpression g start found

def plainStatement (g : Grammar) (marks : List Node) : Reader Node := do
  let start ← here
  let found ← within ({ · with inJoins := true }) (g .expression)
  match found with
  | .identifier _ name =>
    if ← take .colon then return ← labelled g start name
    wordStatement g name found marks
  | _ =>
    checkNoDefaults found
    endExpression g start found

/-- A declaration of types that a word opens, if its name follows on the same line. -/
def lineDeclaration? (g : Grammar) (start : Nat) (t : Token) : Reader (Option Node) := do
  let next ← ahead
  if !next.isReference || next.afterNewline then return none
  match t.word? with
  | some .interface =>
    advance
    return some (← interface g start)
  | some .typeWord =>
    advance
    return some (← typeAlias g start)
  | some .enumWord =>
    advance
    return some (← enumeration g start)
  | _ => return none

/-- What `await` opens at the start of a statement: variables whose release is awaited, or an
expression, which needs no end. -/
def awaitOpened (g : Grammar) (start : Nat) : Reader Node := do
  let t ← token
  advance
  if ← onWord .using then
    match ← usingVariables? g start with
    | some declared => return declared
    | none => pure ()
  let awaited ← awaitBehind g t
  let found ← within ({ · with inJoins := true }) (g (.operators awaited 0))
  discard takeStop
  node .statement start [found]

/-- A statement that a word of the grammar proper opens; none if no such word is in hand. -/
def opened? (g : Grammar) (declares : Bool) (marks : List Node) (t : Token) :
    Reader (Option Node) := do
  let start := t.start
  match t.kind with
  | .mark .openBrace => return some (← g .block)
  | .mark .semicolon =>
    advance
    return some (← node .statement start [])
  | .word word =>
    match word with
    | .breakWord | .continueWord => return some (← jump t)
    | .debugger =>
      advance
      needStop
      return some (← node .statement start [])
    | .doWord =>
      advance
      let body ← loopBody g
      needWord .whileWord
      let test ← parenthesisedTest g
      discard <| take .semicolon
      return some (← node .statement start [test, body])
    | .forWord => return some (← forStatement g start)
    | .functionWord =>
      unless declares do report start
      return some (← function g start false false true marks)
    | .classWord =>
      unless declares do report start
      return some (← classOf g start false true marks)
    | .ifWord => return some (← ifStatement g start)
    | .returnWord => return some (← returnStatement g start)
    | .switchWord => return some (← switchStatement g start)
    | .throwWord =>
      advance
      if ← afterNewline then fail
      let value ← within ({ · with inJoins := true }) (g .expression)
      needStop
      return some (← node .statement start [value])
    | .catchWord =>
      return some (← strayClause start do return (← catchClause g) ++ (← finallyClause g))
    | .finallyWord => return some (← strayClause start (finallyClause g))
    | .tryWord => return some (← tryStatement g start)
    | .withWord =>
      report start
      advance
      let value ← parenthesisedTest g
      let body ← g .statement
      return some (← node .statement start [value, body])
    | .whileWord =>
      advance
      let test ← parenthesisedTest g
      let body ← loopBody g
      return some (← node .statement start [test, body])
    | .varWord => return some (← variableStatement g)
    | .constWord =>
      if (← ahead).isWord .enumWord then
        advance
        advance
        return some (← enumeration g start)
      if declares then return some (← variableStatement g) else return none
    | .letWord =>
      if declares && (← letDeclares) then return some (← variableStatement g) else return none
    | .using => if declares then usingVariables? g start else return none
    | .interface | .typeWord | .enumWord => lineDeclaration? g start t
    | .async =>
      if ← onAsyncFunction then
        advance
        return some (← function g start true false true marks)
      return none
    | .await => if declares then return some (← awaitOpened g start) else return none
    | _ => return none
  | _ => return none

def statement (g : Grammar) (declares : Bool) (marks : List Node) : Reader Node := do
  match ← opened? g declares marks (← token) with
  | some found => return found
  | none => plainStatement g marks

/-- A statement or declaration. Imports and exports stand at the top of a module only. -/
def listItem (g : Grammar) : Reader Node := do
  let marks ← decorators g
  if ← onWord .importWord then
    let next ← ahead
    unless next.isMark .openParen || next.isMark .dot do fail
    let start ← here
    let found ← g .expression
    discard takeStop
    return ← node .statement start [found]
  if ← onWord .exportWord then fail
  statement g true marks

end Outdent.Syntax.Grammar
