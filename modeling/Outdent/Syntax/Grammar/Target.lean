import Outdent.Syntax.Grammar.Type
/-! # Expressions as patterns

What stands on the left of an equals sign or in front of an arrow is read as an expression before
it is known to be a pattern. Here such an expression is judged as a pattern: a target that cannot
be one is reported, or fails where nothing can be made of it. The tree keeps the expression.
-/
namespace Outdent.Syntax.Grammar
open Reader

inductive PatternUse where
  | target
  | targetPart
  | parameter
  | parameterPart
deriving DecidableEq

def PatternUse.part : PatternUse → PatternUse
  | .target | .targetPart => .targetPart
  | .parameter | .parameterPart => .parameterPart

/-- Whether an expression is one that a value can simply be assigned to. -/
def isSimpleTarget : Node → Bool
  | .identifier _ name => !isBarredTarget name
  | .other .parenthesised _ [inside] => isSimpleTarget inside
  | .other .member _ (object :: _) =>
    match object.kind? with
    | some .member => isSimpleTarget object
    | some .optionalChain => false
    | _ => true
  | .other .superMember _ _ => true
  | .other .nonNull _ (inside :: _) => isSimpleTarget inside
  | .other .asserted _ [_, inside] => isSimpleTarget inside
  | .other .typeCast _ (inside :: _) => isSimpleTarget inside
  | .other .satisfied _ (inside :: _) => isSimpleTarget inside
  | .other .instantiation _ (inside :: _) => isSimpleTarget inside
  | _ => false

/-- Whether an expression that is no simple target is let pass as a target for the time being. -/
def isTolerated (deniesCalls : Bool) : Node → Bool
  | .other .literal _ _ | .other .binary _ _ | .other .logical _ _ | .other .nullish _ _ => true
  | .other .call _ _ => !deniesCalls
  | .other .parenthesised _ [inside] => isTolerated deniesCalls inside
  | _ => false

def checkTarget (deniesCalls : Bool) (n : Node) : Reader Unit := do
  unless isSimpleTarget n || isTolerated deniesCalls n do report n.start

/-- Whether a plain assignment to an expression that is no array or object can be read at all. -/
def isAssignable : Node → Bool
  | .identifier _ _ => true
  | .other kind _ _ =>
    match kind with
    | .member | .superMember | .optionalChain | .parenthesised | .typeCast | .satisfied
    | .nonNull | .asserted | .instantiation | .missing => true
    | _ => false
  | _ => false

/-- The kinds of expressions that are targets of their own within a pattern, right or wrong. -/
def standsAsPart : Node → Bool
  | .identifier _ _ | .template _ => true
  | .other kind _ _ =>
    match kind with
    | .member | .superMember | .call | .newWithArguments | .newWithoutArguments | .literal
    | .functionExpression | .classExpression | .parenthesised | .typeCast => true
    | _ => false
  | _ => false

def trailingComma? (items : List Node) : Option Node := items.find? (Node.hasKind .trailingComma)

def properItems (items : List Node) : List Node := items.filter (! ·.hasKind .trailingComma)

mutual

def judge (use : PatternUse) : Node → Reader Unit
  | .other .object _ items => judgeProperties use.part (trailingComma? items) items
  | .other .array _ items => judgeItems use.part (trailingComma? items) items
  | .other .assignment r [left, _] =>
    if use = .target then failAt r.start
    else if left.hasKind .array || left.hasKind .object then pure ()
    else if use = .targetPart || left.name?.isSome then pure ()
    else report left.start
  | .other .missing _ _ | .other .hole _ _ => pure ()
  | n =>
    match use with
    | .target => do
      checkTarget true n
      unless isAssignable n do failAt n.start
    | .targetPart => do
      if standsAsPart n then
        unless isSimpleTarget n do report n.start
      else report n.start
    | .parameter | .parameterPart => do
      match n.name? with
      | some name => if isBarredTarget name then report n.start
      | none => if n.hasKind .parenthesised then failAt n.start else report n.start

def judgeProperties (use : PatternUse) (comma : Option Node) : List Node → Reader Unit
  | [] => pure ()
  | .other .keyValue _ [_, value] :: rest => do
    judge use value
    judgeProperties use comma rest
  | .other .spread r [inside] :: rest => do
    if properItems rest ≠ [] then report r.start
    else match comma with
      | some c => report c.start
      | none => pure ()
    if use = .parameterPart then
      unless inside.name?.isSome do report r.start
    else judge use inside
    if inside.hasKind .assignment then report r.start
    judgeProperties use comma rest
  | .other .shorthand _ [name] :: rest => do
    if use = .parameterPart then judge use name
    judgeProperties use comma rest
  | .other .shorthandDefault _ _ :: rest => judgeProperties use comma rest
  | .other .trailingComma _ _ :: rest => judgeProperties use comma rest
  | n :: _ => failAt n.start

def judgeItems (use : PatternUse) (comma : Option Node) : List Node → Reader Unit
  | [] => pure ()
  | .other .spread r [inside] :: rest => do
    if properItems rest ≠ [] then report r.start
    else do
      if inside.hasKind .assignment then report r.start
      match comma with
      | some c => report c.start
      | none => pure ()
      judge use inside
    judgeItems use comma rest
  | .other .trailingComma _ _ :: rest => judgeItems use comma rest
  | n :: rest => do
    judge use n
    judgeItems use comma rest

end

mutual

/-- The first property with an initial value in an expression that is meant to be no pattern. What
stands in a function or an array, or on the left of an assignment, is not looked at. -/
def misplacedDefault? : Node → Option Nat
  | .other .shorthandDefault r _ => some r.start
  | .other .functionExpression _ _ | .other .arrow _ _ | .other .array _ _ => none
  | .other .assignment _ [.other .object _ _, right] => misplacedDefault? right
  | .other _ _ children => firstMisplacedDefault? children
  | .template ⟨_, _, holes⟩ => firstMisplacedDefault? holes
  | .tagged _ tag _ ⟨_, _, holes⟩ =>
    match misplacedDefault? tag with
    | some position => some position
    | none => firstMisplacedDefault? holes
  | _ => none

def firstMisplacedDefault? : List Node → Option Nat
  | [] => none
  | n :: rest =>
    match misplacedDefault? n with
    | some position => some position
    | none => firstMisplacedDefault? rest

end

def checkNoDefaults (n : Node) : Reader Unit := do
  match misplacedDefault? n with
  | some position => report position
  | none => pure ()

end Outdent.Syntax.Grammar
