import Outdent.Syntax.Grammar.Statement
/-! # Imports and exports

What a module takes from other modules and gives to them.
-/
namespace Outdent.Syntax.Grammar
open Reader

structure ExchangedName where
  token : Token

namespace ExchangedName

def isString (n : ExchangedName) : Bool := n.token.kind == .string

def text (n : ExchangedName) : String := n.token.text

end ExchangedName

def exchangedName : Reader ExchangedName := do
  let t ← token
  unless t.isName || t.kind == .string do fail
  advance
  return ⟨t⟩

def attributes (g : Grammar) : Reader (List Node) := do
  if ← afterNewline then return []
  if (← takeWord .withWord) || (← takeWord .assertWord) then return [← g .object] else return []

def sourceName : Reader String := do
  let t ← token
  unless t.kind == .string do fail
  advance
  return t.text

def fromClause (g : Grammar) : Reader (String × List Node) := do
  needWord .fromWord
  let source ← sourceName
  let given ← attributes g
  needStop
  return (source, given)

/-- What was read of one name in the braces of an exchange: the name there, the name here if `as`
gives one, and where a word marks it as a type. -/
structure ExchangeItem where
  outer : ExchangedName
  inner : Option ExchangedName
  typeMark : Option Nat

/-- One name in the braces of an exchange. `type` in front of it marks a type, unless `as` makes it
a name: of the words behind `type` the first `as` is a name if the next word is no other `as`. -/
def exchangeItem (innerName : Reader ExchangedName) : Reader ExchangeItem := do
  let first ← exchangedName
  let typeMark := some first.token.start
  if !first.isString && first.text == "type" && (← token).isName then
    let second ← exchangedName
    if second.text != "as" then
      let inner ← if ← takeWord .asWord then pure (some (← innerName)) else pure none
      return ⟨second, inner, typeMark⟩
    unless (← token).isName do return ⟨second, none, typeMark⟩
    let third ← innerName
    if third.text != "as" then return ⟨first, some third, none⟩
    if (← token).isName then return ⟨second, some (← innerName), typeMark⟩
    return ⟨first, some third, none⟩
  let inner ← if ← takeWord .asWord then pure (some (← innerName)) else pure none
  return ⟨first, inner, none⟩

def boundName : Reader ExchangedName := do
  let t ← token
  discard binding
  return ⟨t⟩

/-- A binding in the braces of an import. A string cannot be bound without a name, and neither can a
word that is reserved. -/
def importItem (typesOnly : Bool) : Reader ImportBinding := do
  let item ← exchangeItem boundName
  match item.typeMark with
  | some position => if typesOnly then report position
  | none => pure ()
  match item.inner with
  | some inner => return ⟨.named item.outer.text, inner.text⟩
  | none =>
    if item.outer.isString then failAt item.outer.token.start
    if item.outer.token.word?.any Word.isReserved then failAt item.outer.token.start
    return ⟨.named item.outer.text, item.outer.text⟩

def moduleReference : Reader Unit := do
  if (← onWord .require) && (← ahead).isMark .openParen then
    advance
    need .openParen
    discard sourceName
    need .closeParen
  else discard <| entityName (← here) false

def importEquals (start : Nat) : Reader Node := do
  need .assign
  moduleReference
  needStop
  node .declaration start []

def importedTogether (typesOnly : Bool) : Reader (List ImportBinding) := do
  if ← take .star then
    needWord .asWord
    let name ← boundName
    return [⟨.everything, name.text⟩]
  if ← take .openBrace then
    let found ← separated .closeBrace (importItem typesOnly)
    need .closeBrace
    return found
  return []

inductive ImportOpening where
  | equals (declared : Node)
  /-- It binds names, of which the default one was read if there is one. -/
  | bindings (byDefault : Option String) (typesOnly : Bool)

/-- The default binding of an import, and the words `type`, `defer` and `source` in front of the
bindings, each of which can also be the default binding. -/
def importOpening (start : Nat) : Reader ImportOpening := do
  unless (← token).isReference do return .bindings none false
  let word ← token
  let first ← boundName
  let mut name := first.text
  let mut typesOnly := false
  if word.isWord .typeWord then
    if ← onAny [.star, .openBrace] then return .bindings none true
    if (← token).isReference then
      let next ← ahead
      if !(← onWord .fromWord) || next.isWord .fromWord then
        typesOnly := true
        name := (← boundName).text
      else if next.isMark .assign then
        typesOnly := true
        name := (← boundName).text
  if ← on .assign then return .equals (← importEquals start)
  if word.isWord .deferWord || word.isWord .sourceWord then
    if ← onAny [.star, .openBrace] then return .bindings none typesOnly
    if (← token).isReference && (!(← onWord .fromWord) || (← ahead).isWord .fromWord) then
      name := (← boundName).text
  return .bindings (some name) typesOnly

def importDeclaration (g : Grammar) : Reader Node := do
  let start ← here
  advance
  let finish := fun (source : String) (bindings : List ImportBinding) => do
    let given ← attributes g
    needStop
    return Node.importing ⟨← spanFrom start, source, bindings, given⟩
  if (← token).kind == .string then
    let source ← sourceName
    return ← finish source []
  match ← importOpening start with
  | .equals declared => return declared
  | .bindings byDefault typesOnly =>
    let first := (byDefault.map fun name => (⟨.byDefault, name⟩ : ImportBinding)).toList
    let others ←
      if byDefault.isNone then importedTogether typesOnly
      else if ← take .comma then importedTogether typesOnly
      else pure []
    needWord .fromWord
    let source ← sourceName
    finish source (first ++ others)

/-- A name in the braces of an export. Gives the place of a name that only another module can have,
which is a fault without one. -/
def exportItem (typesOnly : Bool) : Reader (Option Nat) := do
  let item ← exchangeItem exchangedName
  match item.typeMark with
  | some position => if typesOnly then report position
  | none => pure ()
  let outer := item.outer
  if outer.isString || outer.token.word?.any Word.isReserved then return some outer.token.start
  return none

def exportedNames (g : Grammar) (start : Nat) (typesOnly : Bool) : Reader Node := do
  if (← on .star) && !(← ahead).isWord .asWord then
    advance
    let (_, given) ← fromClause g
    return ← node .exporting start given
  if ← take .star then
    needWord .asWord
    discard exchangedName
    let (_, given) ← fromClause g
    return ← node .exporting start given
  need .openBrace
  let items ← separated .closeBrace (exportItem typesOnly)
  need .closeBrace
  if ← onWord .fromWord then
    let (_, given) ← fromClause g
    return ← node .exporting start given
  for item in items do
    match item with
    | some position => report position
    | none => pure ()
  discard takeStop
  node .exporting start []

def exportedDefault (g : Grammar) (start : Nat) (marks : List Node) : Reader Node := do
  let later ← decorators g
  if !later.isEmpty && !marks.isEmpty then failAt (later.head?.map Node.start |>.getD start)
  let marks := if later.isEmpty then marks else later
  let position ← here
  let next ← ahead
  if (← onWord .abstractWord) && next.isWord .classWord && !next.afterNewline then
    advance
    return ← classOf g position false false marks
  if (← onWord .abstractWord) && next.isWord .interface then
    report position
    advance
  if ← onWord .interface then
    let position ← here
    advance
    return ← interface g position
  if ← onWord .classWord then return ← classOf g position false false marks
  if ← onAsyncFunction then
    advance
    return ← function g position true false false marks
  if ← onWord .functionWord then return ← function g position false false false marks
  let value ← within ({ · with inJoins := true }) (g .assignment)
  needStop
  return value

def exportedDeclaration? (g : Grammar) (marks : List Node) : Reader (Option Node) := do
  let start ← here
  let t ← token
  match t.word? with
  | some .classWord => return some (← classOf g start false true marks)
  | some .functionWord => return some (← function g start false false true marks)
  | some .async =>
    unless ← onAsyncFunction do return none
    advance
    return some (← function g start true false true marks)
  | some .constWord =>
    if (← ahead).isWord .enumWord then
      advance
      advance
      return some (← enumeration g start)
    return some (← variableStatement g)
  | some .varWord => return some (← variableStatement g)
  | some .letWord =>
    if ← letDeclares then return some (← variableStatement g) else return none
  | _ => return none

def exportedType? (g : Grammar) (marks : List Node) : Reader (Option Node) := do
  let t ← token
  match t.word? with
  | none => return none
  | some word => attempt (typeDeclaration? g t.start marks word true)

/-- An export in a form of its own: of a module under another name, of a single value, or of all
under one name. -/
def exportedOtherwise? (start : Nat) (g : Grammar) : Reader (Option Node) := do
  if ← takeWord .importWord then
    let next ← ahead
    if (← onWord .typeWord) && next.isReference then advance
    discard name
    return some (← importEquals start)
  if ← take .assign then
    let value ← g .expression
    needStop
    return some (← node .exporting start [value])
  if ← takeWord .asWord then
    needWord .namespaceWord
    discard <| identifier false
    needStop
    return some (← node .exporting start [])
  return none

def exportDeclaration (g : Grammar) (marks : List Node) : Reader Node := do
  let start := startWith marks (← here)
  advance
  let position ← here
  if ← takeWord .declareWord then
    match ← ambientDeclaration? g position marks with
    | some declared => return ← node .exporting start [declared]
    | none => pure ()
  match ← exportedType? g marks with
  | some declared => return ← node .exporting start [declared]
  | none => pure ()
  match ← exportedOtherwise? start g with
  | some found => return found
  | none => pure ()
  let typesOnly ← takeWord .typeWord
  if !typesOnly then
    if ← takeWord .defaultWord then
      let value ← exportedDefault g start marks
      return ← node .exporting start [value]
  let later ← decorators g
  if !later.isEmpty && !marks.isEmpty then failAt (later.head?.map Node.start |>.getD start)
  if !typesOnly then
    match ← exportedDeclaration? g (marks ++ later) with
    | some declared => return ← node .exporting start [declared]
    | none => pure ()
  exportedNames g start typesOnly

def moduleItem (g : Grammar) : Reader Node := do
  let marks ← decorators g
  if ← onWord .exportWord then return ← exportDeclaration g marks
  if ← onWord .importWord then
    let next ← ahead
    unless next.isMark .openParen || next.isMark .dot do return ← importDeclaration g
    let start ← here
    let found ← g .expression
    discard takeStop
    return ← node .statement start [found]
  statement g true marks

end Outdent.Syntax.Grammar
