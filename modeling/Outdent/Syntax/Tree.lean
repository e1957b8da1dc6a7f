import Outdent.Edit
/-! # Syntax trees

The tree of a script as far as a rewrite has to see it. Identifier references, templates, tagged
templates and import declarations are told apart with all their parts; every other construct is
a node of some kind with its children in the order in which they are visited.
-/
namespace Outdent.Syntax

structure Segment where
  range : Span
  raw : List Char
deriving DecidableEq

structure Template (α : Type) where
  range : Span
  segments : List Segment
  holes : List α

inductive Imported where
  | byDefault
  | named (name : String)
  | everything
deriving DecidableEq

structure ImportBinding where
  imported : Imported
  localName : String
deriving DecidableEq

/-- An import declaration. The attributes are an object literal if there are any. -/
structure ImportDeclaration (α : Type) where
  range : Span
  source : String
  bindings : List ImportBinding
  attributes : List α

inductive Kind where
  | literal
  /-- A name that is no reference: of a member, a property, a type. -/
  | name
  | privateName
  | self
  | superReference
  | metaProperty
  | array
  | object
  | hole
  | trailingComma
  | shorthand
  | keyValue
  /-- A property name with an initial value, which only a pattern can have. -/
  | shorthandDefault
  | method
  | accessor
  | computedKey
  | spread
  | functionExpression
  | arrow
  | classExpression
  | parenthesised
  | sequence
  | member
  | superMember
  | optionalChain
  | call
  | newWithArguments
  | newWithoutArguments
  | importCall
  | unary
  | update
  | awaitExpression
  | yieldExpression
  | binary
  | nullish
  | logical
  | conditional
  | assignment
  | compoundAssignment
  | typeCast
  | constCast
  | asserted
  | nonNull
  | satisfied
  | instantiation
  | element
  | missing
  | arrayPattern
  | objectPattern
  | patternProperty
  | patternDefault
  | rest
  | annotated
  | parameter
  | typeArguments
  | typeParameters
  | type
  | typeMember
  | decorator
  | classMember
  | classConstructor
  /-- A name or pattern that is declared, with its initial value if it has one. -/
  | declarator
  | variables
  | declaration
  | exporting
  | statement
  | block
  | group
deriving DecidableEq

inductive Node where
  | identifier (range : Span) (name : String)
  | template (body : Template Node)
  /-- A template with a tag in front, and type arguments between the two if there are any. -/
  | tagged (range : Span) (tag : Node) (typeArguments : Option Node) (body : Template Node)
  | importing (declaration : ImportDeclaration Node)
  | other (kind : Kind) (range : Span) (children : List Node)

namespace Node

def range : Node → Span
  | .identifier r _ => r
  | .template body => body.range
  | .tagged r _ _ _ => r
  | .importing d => d.range
  | .other _ r _ => r

def start (n : Node) : Nat := n.range.start

/-- The kind of a node; the forms of their own have none. -/
def kind? : Node → Option Kind
  | .other k _ _ => some k
  | _ => none

def hasKind (k : Kind) (n : Node) : Bool := n.kind? == some k

def children : Node → List Node
  | .other _ _ cs => cs
  | _ => []

def name? : Node → Option String
  | .identifier _ name => some name
  | _ => none

end Node

structure Module where
  items : List Node

end Outdent.Syntax
