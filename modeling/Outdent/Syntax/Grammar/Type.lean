import Outdent.Syntax.Grammar.Pattern
/-! # Types

The types of the language. A type leaves nothing in a script to be looked at but the names of
computed members and the options of an imported type, so nearly all of them are nodes of one kind.
-/
namespace Outdent.Syntax.Grammar
open Reader

def typeNode (start : Nat) (children : List Node) : Reader Node := node .type start children

def needMemberStop : Reader Unit := do
  unless ← take .comma do needStop

/-- Names with points between them. A point with no name behind it is a fault. -/
def entityName (start : Nat) (allowsReserved : Bool) : Reader Node := do
  discard name
  discard <| repeating () fun _ => do
    unless ← take .dot do return none
    unless (← token).isName || (← on .hash) do
      report (← here)
      return none
    if allowsReserved then discard name else discard <| identifier false
    return some ()
  typeNode start []

def skipParameterStart (g : Grammar) : Reader Bool := do
  discard takeParameterModifier
  let t ← token
  if t.isReference || t.isWord .thisWord then
    advance
    return true
  if t.isMark .openBrace || t.isMark .openBracket then
    match ← outcome (g .pattern) with
    | .ok _ => return true
    | .error _ => return false
  return false

def opensFunctionType (g : Grammar) : Reader Bool := foresee do
  advance
  if (← on .closeParen) || (← on .ellipsis) then return true
  if ← skipParameterStart g then
    if ← onAny [.colon, .comma, .question, .assign] then return true
    if ← take .closeParen then return ← on .arrow
  return false

def functionType (g : Grammar) (isConstructor : Bool) : Reader Node := do
  let start ← here
  if isConstructor then
    discard <| takeWord .abstractWord
    needWord .newWord
  let typeParameters ← optionalTypeParameters g false true
  need .openParen
  let given ← signatureParameters g
  let result ← resultType g .arrow
  typeNode start (given ++ typeParameters ++ [result])

/-- Types with a mark between them, which may also stand in front of the first. -/
def joinedTypes (mark : Mark) (part : Reader Node) : Reader Node := do
  let start ← here
  discard <| take mark
  let first ← part
  let others ← collect do if ← take mark then return some (← part) else return none
  if others.isEmpty then return first
  typeNode start (first :: others)

def isTypeWord : Word → Bool
  | .void | .nullWord | .anyType | .booleanType | .bigintType | .never | .numberType
  | .objectType | .stringType | .symbolType | .unknownType | .undefinedWord | .intrinsic => true
  | _ => false

def referredType (g : Grammar) : Reader Node := do
  let start ← here
  let name ← entityName start true
  let arguments ← optionalTypeArguments g
  typeNode start (name :: arguments)

def typeMemberName (g : Grammar) : Reader Node := do
  let t ← token
  if t.isMark .openBracket then
    advance
    let key ← g .assignment
    need .closeBracket
    node .computedKey t.start [key]
  else if t.isLiteralName then literal
  else if t.isMark .hash then
    report t.start
    privateName
  else name

def indexSignature? (g : Grammar) (start : Nat) : Reader (Option Node) := do
  unless ← on .openBracket do return none
  let isSignature ← foresee do
    advance
    unless (← token).isReference do return false
    advance
    onAny [.colon, .comma]
  unless isSignature do return none
  need .openBracket
  let key ← name
  if ← take .comma then report key.start else need .colon
  let keyType ← g .type
  need .closeBracket
  let type ← optionalAnnotation g
  needMemberStop
  return some (← node .typeMember start (keyType :: type))

/-- A signature: what can be called, behind `new` what can be made. -/
def signature (g : Grammar) (start : Nat) (head : List Node) : Reader Node := do
  let typeParameters ← optionalTypeParameters g false true
  need .openParen
  let given ← signatureParameters g
  let result ← optionalResultType g
  needMemberStop
  node .typeMember start (head ++ given ++ result ++ typeParameters)

def accessorSignature (g : Grammar) (start : Nat) (isReadonly : Bool) : Reader Node := do
  if isReadonly then fail
  let isGetter ← takeWord .get
  unless isGetter do needWord .set
  let key ← typeMemberName g
  need .openParen
  if isGetter then
    need .closeParen
    let type ← optionalAnnotation g
    needMemberStop
    node .typeMember start (key :: type)
  else
    let given ← signatureParameters g
    if given.isEmpty then fail
    needMemberStop
    node .typeMember start (key :: given)

def typeMember (g : Grammar) : Reader Node := do
  let start ← here
  if ← onAny [.openParen, .less] then return ← signature g start []
  if ← onWord .newWord then
    let next ← ahead
    if next.isMark .openParen || next.isMark .less then
      advance
      return ← signature g start []
  let isReadonly := (← takeModifier (· == .readonly) false).isSome
  match ← indexSignature? g start with
  | some index => return index
  | none => pure ()
  match ← attempt (do return some (← accessorSignature g start isReadonly)) with
  | some accessor => return accessor
  | none => pure ()
  let key ← typeMemberName g
  discard <| take .question
  if ← onAny [.openParen, .less] then
    if isReadonly then fail
    return ← signature g start [key]
  let type ← optionalAnnotation g
  needMemberStop
  node .typeMember start (key :: type)

def typeMembers (g : Grammar) : Reader (List Node) := do
  need .openBrace
  let members ← collect do
    if ← on .closeBrace then return none else return some (← typeMember g)
  need .closeBrace
  return members

def opensMappedType : Reader Bool := foresee do
  advance
  if (← take .plus) || (← take .minus) then return ← onWord .readonly
  discard <| takeWord .readonly
  unless ← take .openBracket do return false
  unless (← token).isReference do return false
  advance
  onWord .inWord

def mappedType (g : Grammar) : Reader Node := do
  let start ← here
  need .openBrace
  if (← take .plus) || (← take .minus) then needWord .readonly
  else discard <| takeWord .readonly
  need .openBracket
  discard name
  needWord .inWord
  let keys ← g .type
  let renamed ← if ← takeWord .asWord then pure [← g .type] else pure []
  need .closeBracket
  if (← take .plus) || (← take .minus) then need .question
  else discard <| take .question
  let type ← optionalAnnotation g
  needStop
  need .closeBrace
  typeNode start (keys :: renamed ++ type)

def tupleLabel? : Reader (Option Unit) := attempt do
  discard <| take .ellipsis
  discard name
  discard <| take .question
  need .colon
  return some ()

inductive TupleElement where
  | required
  | optional
  | rest
deriving DecidableEq

def tupleElement (g : Grammar) : Reader (TupleElement × Node) := do
  discard tupleLabel?
  if ← take .ellipsis then return (.rest, ← g .type)
  let type ← g .type
  if ← take .question then return (.optional, type) else return (.required, type)

def areOrdered : List TupleElement → Bool
  | [] => true
  | .optional :: rest => !rest.contains .required && areOrdered rest
  | _ :: rest => areOrdered rest

def tupleType (g : Grammar) : Reader Node := do
  let start ← here
  need .openBracket
  let elements ← separated .closeBracket (tupleElement g)
  need .closeBracket
  unless areOrdered (elements.map (·.1)) do failAt start
  typeNode start (elements.map (·.2))

def importOptions (g : Grammar) : Reader Node := do
  need .openBrace
  needWord .withWord
  need .colon
  let options ← g .object
  discard <| take .comma
  need .closeBrace
  return options

def importType (g : Grammar) : Reader Node := do
  let start ← here
  needWord .importWord
  need .openParen
  let source ← token
  advance
  unless source.kind == .string do report source.start
  let options ←
    if (← take .comma) && (← on .openBrace) then pure [← importOptions g] else pure []
  need .closeParen
  if ← take .dot then discard <| entityName (← here) false
  let arguments ← if ← onTypeArguments then pure [← typeArguments g] else pure []
  typeNode start (options ++ arguments)

def queriedType (g : Grammar) : Reader Node := do
  let start ← here
  needWord .typeof
  let value ← if ← onWord .importWord then importType g else entityName (← here) true
  let arguments ← optionalTypeArguments g
  typeNode start (value :: arguments)

/-- The type of `this`, and what a function tells about it. -/
def thisType (g : Grammar) (start : Nat) (isAsserted : Bool) : Reader Node := do
  needWord .thisWord
  let isTested := (← onWord .isWord) && (isAsserted || !(← afterNewline))
  unless isTested do return ← typeNode start []
  advance
  let type ← g .type
  typeNode start [type]

def worded (g : Grammar) (word : Word) : Reader Node := do
  let start ← here
  match word with
  | .importWord => importType g
  | .thisWord => thisType g start false
  | .typeof => queriedType g
  | .trueWord | .falseWord =>
    advance
    typeNode start []
  | .asserts =>
    if (← ahead).isWord .thisWord then
      advance
      thisType g start true
    else referredType g
  | _ =>
    if isTypeWord word && !(← ahead).isMark .dot then
      advance
      typeNode start []
    else if word.isKeyword && !(word == .void || word == .nullWord || word == .breakWord) then fail
    else referredType g

def simpleType (g : Grammar) : Reader Node := do
  let t ← token
  match t.kind with
  | .word word => worded g word
  | .string | .number =>
    advance
    typeNode t.start []
  | .mark .minus =>
    advance
    unless (← token).kind == .number do fail
    advance
    typeNode t.start []
  | .mark .openBrace =>
    if ← opensMappedType then mappedType g
    else
      let members ← typeMembers g
      typeNode t.start members
  | .mark .openBracket => tupleType g
  | .mark .openParen =>
    advance
    let inside ← g .type
    need .closeParen
    typeNode t.start [inside]
  | .mark .backquote =>
    let body ← templateOf (g .type) false
    typeNode t.start body.holes
  | _ => fail

def arrayType (g : Grammar) : Reader Node := do
  let start ← here
  let first ← simpleType g
  repeating first fun type => do
    if ← afterNewline then return none
    unless ← take .openBracket do return none
    if ← take .closeBracket then return some (← typeNode start [type])
    let index ← g .type
    need .closeBracket
    return some (← typeNode start [type, index])

/-- A type that is inferred, with what it extends. The sign of a conditional type behind it shows
that `extends` belongs to that one. -/
def inferredType (g : Grammar) : Reader Node := do
  let start ← here
  needWord .infer
  discard name
  let bound ← attempt do
    needWord .extendsWord
    let bound ← g .plainType
    if (← context).plainTypes || !(← on .question) then return some bound else return none
  typeNode start bound.toList

def operatorType (g : Grammar) : Reader Node := do
  let start ← here
  match (← token).word? with
  | some .keyof | some .unique | some .readonly =>
    advance
    let type ← g .operatorType
    typeNode start [type]
  | some .infer => inferredType g
  | _ => arrayType g

def plainType (g : Grammar) : Reader Node := do
  if ← on .less then return ← functionType g false
  if ← on .openParen then
    if ← opensFunctionType g then return ← functionType g false
  if ← onWord .newWord then return ← functionType g true
  if (← onWord .abstractWord) && (← ahead).isWord .newWord then return ← functionType g true
  joinedTypes .pipe (joinedTypes .ampersand (operatorType g))

def type (g : Grammar) : Reader Node := within ({ · with plainTypes := false }) do
  let start ← here
  let checked ← plainType g
  if ← afterNewline then return checked
  unless ← takeWord .extendsWord do return checked
  let bound ← within ({ · with plainTypes := true }) (g .plainType)
  need .question
  let whenSo ← g .type
  need .colon
  let otherwise ← g .type
  typeNode start [checked, bound, whenSo, otherwise]

end Outdent.Syntax.Grammar
