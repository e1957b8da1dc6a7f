import Outdent.Syntax.Grammar.Object
/-! # Classes

A class is a row of members: methods, a constructor, properties, blocks that run once, and index
signatures. The words in front of a member say how it may be used; each of them can also be the
name of a member.
-/
namespace Outdent.Syntax.Grammar
open Reader

def heritage (g : Grammar) : Reader (List Node) :=
  let onEndOfList : Reader Bool := do
    return (← on .openBrace) || (← onWord .implements) || (← onWord .extendsWord)
  let step : List Node × Bool → Reader (Option (List Node × Bool)) := fun (found, isOver) => do
    if isOver || (← onEndOfList) then return none
    let start ← here
    let t ← token
    discard name
    let target ← chain g { calls := false, computed := false } (.identifier t.span t.text)
    let isNamed := target.name?.isSome || target.hasKind .member || target.hasKind .instantiation
    unless isNamed do report start
    let types ←
      if !target.hasKind .instantiation && (← on .less) then pure [← typeArguments g] else pure []
    let next ← node .type start (target :: types)
    if ← take .comma then return some (next :: found, false)
    unless ← onEndOfList do fail
    return some (next :: found, true)
  do
    let (found, _) ← repeating ([], false) step
    return found.reverse

structure MemberHead where
  start : Nat
  decorators : List Node
  declared : Option Nat := none
  hasAccess : Bool := false
  isStatic : Option Nat := none
  isAbstract : Bool := false
  isOverride : Bool := false
  readonlyAt : Option Nat := none
  modifiedAt : Option Nat := none

def onMethod : Reader Bool := onAny [.openParen, .less]

def onProperty (endsWithLine : Bool) : Reader Bool := do
  if ← onAny [.bang, .colon, .assign, .closeBrace] then return true
  if endsWithLine then onStop else on .semicolon

def memberKey (g : Grammar) : Reader (Node × Option String) := do
  let t ← token
  if t.isMark .hash then
    let isConstructor := (← ahead).text == "constructor"
    let key ← privateName
    if isConstructor then report t.start
    return (key, none)
  return (← propertyName g, propertyText t)

def classProperty (g : Grammar) (head : MemberHead) (key : Node) (text : Option String)
    (isOptional : Bool) : Reader Node := do
  if text == some "constructor" then failAt key.start
  if key.hasKind .privateName && (head.declared.isSome || head.hasAccess) then report key.start
  unless isOptional do discard <| take .bang
  let type ← optionalAnnotation g
  let value ← within (fun c =>
      { c with
        inClassField := true
        hasTarget := true
        inJoins := true
        isAsync := false
        isGenerator := false }) do
    if ← take .assign then return [← g .assignment] else return []
  unless ← takeStop do report (← here)
  node .classMember head.start (key :: value ++ type ++ head.decorators)

def classMethod (g : Grammar) (head : MemberHead) (key : Node) (text : Option String)
    (use : MethodUse) (sort : FunctionSort) : Reader Node := do
  let (method, _) ← method g head.start key use sort head.decorators
  if head.isStatic.isSome && text == some "prototype" then report key.start
  if key.hasKind .privateName && (head.hasAccess || head.isAbstract) then report key.start
  return method

def constructorParameter (g : Grammar) : Reader Node := do
  let start ← here
  let marks ← decorators g
  if ← on .ellipsis then
    let inside ← restParameter g
    return ← node .parameter start (marks ++ [inside])
  let access ← takeModifier isAccessModifier false
  let override ← takeModifier (· == .override) false
  let readonly ← takeModifier (· == .readonly) false
  let isProperty := access.isSome || override.isSome || readonly.isSome
  let inside ← plainParameter g
  if isProperty then
    let bound :=
      if inside.hasKind .patternDefault then inside.children.head?.getD inside else inside
    let bound := if bound.hasKind .annotated then bound.children.head?.getD bound else bound
    unless bound.name?.isSome do failAt inside.start
    return ← node .annotated start (marks ++ [inside])
  node .parameter start (marks ++ [inside])

def constructorParameters (g : Grammar) : Reader (List Node) :=
  restLast .closeParen false do
    let parameter ← constructorParameter g
    return (parameter, (parameterPattern? parameter).any (Node.hasKind .rest))

/-- A constructor behind its name; the kind tells whether it has a body. -/
def classConstructor (g : Grammar) (head : MemberHead) (key : Node) : Reader Node := do
  if head.isOverride then report head.start
  if ← on .less then
    let types ← typeParameters g false true
    report ((types.children.head?.map Node.start).getD types.start)
  need .openParen
  let parameters ←
    within ({ · with inParameters := true, inFunction := false }) (constructorParameters g)
  need .closeParen
  if ← take .colon then
    let result ← g .type
    report result.start
  let hasBody := (← on .openBrace) || !(← onStop)
  let body ←
    if hasBody then pure [← functionBody g {} false (areSimple parameters)]
    else
      discard takeStop
      for parameter in parameters do
        if parameter.hasKind .annotated then report parameter.start
      pure []
  match head.isStatic with
  | some position => report position
  | none => pure ()
  match head.modifiedAt with
  | some position => if head.isAbstract then report position
  | none => pure ()
  let kind : Kind := if hasBody then .classConstructor else .classMember
  node kind head.start (key :: parameters ++ body)

/-- Goes over the modifiers of a member. They stand in a fixed order, and `override` needs a class
that is extended. -/
def memberModifiers (head : MemberHead) : Reader MemberHead :=
  repeating head fun head => do
    let isModifier : Word → Bool := fun w =>
      w == .abstractWord || w == .readonly || w == .override || w == .static
    match ← takeModifier isModifier true with
    | none => return none
    | some (w, position) =>
      let head := { head with modifiedAt := some position }
      match w with
      | .abstractWord =>
        if head.isAbstract || head.isOverride || head.readonlyAt.isSome then report position
        return some { head with isAbstract := true }
      | .override =>
        if head.isOverride || head.readonlyAt.isSome || head.declared.isSome ||
            !(← context).hasSuperclass then report position
        return some { head with isOverride := true }
      | .readonly =>
        if head.readonlyAt.isSome then report position
        return some { head with readonlyAt := some position }
      | _ =>
        if head.isOverride then report position
        return some { head with isStatic := some position }

/-- A member of a class whose name is the word that was just gone over, if what follows shows that
it is one. -/
def memberNamedByWord? (g : Grammar) (head : MemberHead) (word : Token) (endsWithLine : Bool) :
    Reader (Option Node) := do
  let key : Node := .other .name word.span []
  if ← onMethod then return some (← classMethod g head key (some word.text) .plain {})
  if ← take .question then
    if ← onMethod then return some (← classMethod g head key (some word.text) .plain {})
    return some (← classProperty g head key (some word.text) true)
  if ← onProperty endsWithLine then
    return some (← classProperty g head key (some word.text) false)
  return none

def staticBlock (g : Grammar) (head : MemberHead) : Reader Node := do
  match head.declared with
  | some position => report position
  | none => pure ()
  if head.hasAccess then report (← here)
  let labels := (← get).labels
  modify ({ · with labels := [] })
  let body ← within (fun c =>
    { c with
      inStaticBlock := true
      inClassField := true
      hasTarget := true
      breakable := false
      continuable := false
      isAsync := false
      isGenerator := false }) (g .block)
  modify ({ · with labels := labels })
  node .classMember head.start [body]

def wordedMember (g : Grammar) (head : MemberHead) (keyStart : Nat) (word : String)
    (isOptional : Bool) : Reader Node := do
  if word == "async" then
    match ← takeModifier (· == .override) false with
    | some (_, position) => report position
    | none => pure ()
    let isGenerator ← take .star
    let (key, text) ← memberKey g
    if text == some "constructor" then failAt key.start
    unless isOptional do discard <| take .question
    return ← classMethod g head key text .plain { isAsync := true, isGenerator }
  let (key, text) ← memberKey g
  if head.readonlyAt.isSome then report keyStart
  if text == some "constructor" then report keyStart
  classMethod g head key text (if word == "get" then .getter else .setter) {}

def memberBehindModifiers (g : Grammar) (head : MemberHead) : Reader Node := do
  if ← take .star then
    let (key, text) ← memberKey g
    match head.readonlyAt with
    | some _ => report head.start
    | none => pure ()
    if text == some "constructor" then failAt key.start
    return ← classMethod g head key text .plain { isGenerator := true }
  let keyToken ← token
  let readonlyIsKey := head.readonlyAt.isSome && (← onAny [.bang, .colon])
  let (key, text) ←
    if readonlyIsKey then
      let position := head.readonlyAt.getD head.start
      pure (.other .name ⟨position, position + 8⟩ [], some "readonly")
    else memberKey g
  let isOptional ← take .question
  if ← onMethod then
    match head.declared with
    | some position => report position
    | none => pure ()
    if head.readonlyAt.isSome then failAt head.start
    if text == some "constructor" then return ← classConstructor g head key
    return ← classMethod g head key text .plain {}
  let isAccessor := isPlainName key && (text == some "get" || text == some "set") &&
    !(← onProperty false) && !((← afterNewline) && (← on .star))
  unless isAccessor do
    if ← onProperty true then return ← classProperty g head key text isOptional
  if isAccessor then return ← wordedMember g head keyToken.start (text.getD "") isOptional
  if isPlainName key && text == some "async" && !(← afterNewline) then
    return ← wordedMember g head keyToken.start "async" isOptional
  fail

def memberBehindStatic (g : Grammar) (head : MemberHead) : Reader Node := do
  let head ← memberModifiers head
  let word ← token
  if ← takeWord .accessor then
    match ← memberNamedByWord? g head word true with
    | some found => return found
    | none => pure ()
  if head.isStatic.isSome && (← on .openBrace) then return ← staticBlock g head
  if !head.isAbstract && !head.isOverride && !head.hasAccess then
    match ← indexSignature? g head.start with
    | some index => return index
    | none => pure ()
  memberBehindModifiers g head

def classMember (g : Grammar) : Reader Node := do
  let start ← here
  let marks ← decorators g
  let head : MemberHead := { start, decorators := marks }
  let first ← token
  let isDeclared ← takeWord .declareWord
  let access ← takeModifier (fun w => isAccessModifier w || w == .inWord || w == .outWord) false
  match access with
  | some (w, position) => unless isAccessModifier w do report position
  | none => pure ()
  let second ← token
  let isDeclaredLate ← if isDeclared then pure false else takeWord .declareWord
  let word := if isDeclared then first else second
  let head := { head with hasAccess := access.isSome }
  let head :=
    if isDeclared || isDeclaredLate then { head with declared := some word.start } else head
  if head.declared.isSome then
    match ← memberNamedByWord? g { head with declared := none } word true with
    | some found => return found
    | none => pure ()
  let word ← token
  if ← takeWord .static then
    match ← memberNamedByWord? g head word false with
    | some found => return found
    | none => return ← memberBehindStatic g { head with isStatic := some word.start }
  memberBehindStatic g head

/-- The members of a class up to the closing brace. A second constructor with a body is a fault. -/
def classMembers (g : Grammar) : Reader (List Node) := do
  let (found, _) ← repeating ([], false) fun (found, hasConstructor) => do
    if (← onEnd) || (← on .closeBrace) then return none
    if ← take .semicolon then return some (found, hasConstructor)
    let member ← classMember g
    let isConstructor := member.hasKind .classConstructor
    if isConstructor && hasConstructor && !(← context).ambient then report member.start
    return some (member :: found, hasConstructor || isConstructor)
  return found.reverse

def superclass (g : Grammar) : Reader (List Node) := do
  let extended ← g .leftHand
  if extended.hasKind .instantiation then return [extended]
  if ← onTypeArguments then return [extended, ← typeArguments g] else return [extended]

/-- Goes over an `extends` or `implements` that cannot stand here. -/
def misplacedHeritage (g : Grammar) (word : Word) (clause : Grammar → Reader (List Node)) :
    Reader (List Node) := do
  let position ← here
  if ← takeWord word then
    report position
    clause g
  else return []

def isTypeName (name : String) : Bool :=
  ["string", "null", "number", "object", "any", "unknown", "boolean", "bigint", "symbol", "void",
    "never", "intrinsic"].contains name

def classOf (g : Grammar) (start : Nat) (isExpression needsName : Bool) (marks : List Node) :
    Reader Node := do
  needWord .classWord
  let name ←
    if needsName || ((← onBinding) && !(← onWord .implements)) then pure [← lexicalBinding]
    else pure []
  for n in name do
    if n.name?.any isTypeName then report n.start
  let types ← optionalTypeParameters g true true
  let extended ← if ← takeWord .extendsWord then superclass g else pure []
  if !extended.isEmpty then
    if ← take .comma then
      for other in ← heritage g do report other.start
  discard <| misplacedHeritage g .extendsWord superclass
  let kept ← if ← takeWord .implements then heritage g else pure []
  discard <| misplacedHeritage g .implements heritage
  let late ← misplacedHeritage g .extendsWord superclass
  need .openBrace
  let hasSuperclass := !extended.isEmpty || !late.isEmpty
  let members ← within (fun c => { c with inClass := true, hasSuperclass }) (classMembers g)
  if ← onEnd then report (← here) else need .closeBrace
  let kind : Kind := if isExpression then .classExpression else .declaration
  node kind (startWith marks start) (name ++ marks ++ members ++ extended ++ types ++ kept)

end Outdent.Syntax.Grammar
