/-! # Words

The words that mean something to the grammar, by their spelling, and which of them cannot name a
variable. A module is always strict, so the words reserved there are reserved everywhere.
-/
namespace Outdent.Syntax

inductive Word where
  | other
  | abstractWord | accessor | anyType | asWord | assertWord | asserts | async | await
  | bigintType | booleanType | breakWord | caseWord | catchWord | classWord | constWord
  | continueWord | debugger | declareWord | defaultWord | deferWord | delete | doWord | elseWord
  | enumWord | exportWord | extendsWord | falseWord | finallyWord | forWord | fromWord
  | functionWord | get | global | ifWord | implements | importWord | inWord | infer
  | instanceofWord | interface | intrinsic | isWord | keyof | letWord | moduleWord
  | namespaceWord | never | newWord | nullWord | numberType | objectType | of | outWord
  | override | packageWord | privateWord | protectedWord | publicWord | readonly | require
  | returnWord | satisfies | set | sourceWord | static | stringType | superWord | switchWord
  | symbolType | target | thisWord | throwWord | trueWord | tryWord | typeWord | typeof
  | undefinedWord | unique | unknownType | using | varWord | void | whileWord | withWord | yield
deriving DecidableEq

def Word.ofName (name : String) : Word :=
  match name with
  | "abstract" => .abstractWord
  | "accessor" => .accessor
  | "any" => .anyType
  | "as" => .asWord
  | "assert" => .assertWord
  | "asserts" => .asserts
  | "async" => .async
  | "await" => .await
  | "bigint" => .bigintType
  | "boolean" => .booleanType
  | "break" => .breakWord
  | "case" => .caseWord
  | "catch" => .catchWord
  | "class" => .classWord
  | "const" => .constWord
  | "continue" => .continueWord
  | "debugger" => .debugger
  | "declare" => .declareWord
  | "default" => .defaultWord
  | "defer" => .deferWord
  | "delete" => .delete
  | "do" => .doWord
  | "else" => .elseWord
  | "enum" => .enumWord
  | "export" => .exportWord
  | "extends" => .extendsWord
  | "false" => .falseWord
  | "finally" => .finallyWord
  | "for" => .forWord
  | "from" => .fromWord
  | "function" => .functionWord
  | "get" => .get
  | "global" => .global
  | "if" => .ifWord
  | "implements" => .implements
  | "import" => .importWord
  | "in" => .inWord
  | "infer" => .infer
  | "instanceof" => .instanceofWord
  | "interface" => .interface
  | "intrinsic" => .intrinsic
  | "is" => .isWord
  | "keyof" => .keyof
  | "let" => .letWord
  | "module" => .moduleWord
  | "namespace" => .namespaceWord
  | "never" => .never
  | "new" => .newWord
  | "null" => .nullWord
  | "number" => .numberType
  | "object" => .objectType
  | "of" => .of
  | "out" => .outWord
  | "override" => .override
  | "package" => .packageWord
  | "private" => .privateWord
  | "protected" => .protectedWord
  | "public" => .publicWord
  | "readonly" => .readonly
  | "require" => .require
  | "return" => .returnWord
  | "satisfies" => .satisfies
  | "set" => .set
  | "source" => .sourceWord
  | "static" => .static
  | "string" => .stringType
  | "super" => .superWord
  | "switch" => .switchWord
  | "symbol" => .symbolType
  | "target" => .target
  | "this" => .thisWord
  | "throw" => .throwWord
  | "true" => .trueWord
  | "try" => .tryWord
  | "type" => .typeWord
  | "typeof" => .typeof
  | "undefined" => .undefinedWord
  | "unique" => .unique
  | "unknown" => .unknownType
  | "using" => .using
  | "var" => .varWord
  | "void" => .void
  | "while" => .whileWord
  | "with" => .withWord
  | "yield" => .yield
  | _ => .other

/-- The words that are part of the grammar proper and name nothing in any place. -/
def Word.isKeyword : Word → Bool
  | .breakWord | .caseWord | .catchWord | .classWord | .constWord | .continueWord | .debugger
  | .defaultWord | .delete | .doWord | .elseWord | .exportWord | .extendsWord | .falseWord
  | .finallyWord | .forWord | .functionWord | .ifWord | .importWord | .inWord | .instanceofWord
  | .newWord | .nullWord | .returnWord | .superWord | .switchWord | .thisWord | .throwWord
  | .trueWord | .tryWord | .typeof | .varWord | .void | .whileWord | .withWord => true
  | _ => false

/-- The words that cannot be a reference in a module. -/
def Word.isReserved (w : Word) : Bool :=
  w.isKeyword ||
    match w with
    | .await | .enumWord | .implements | .interface | .letWord | .packageWord | .privateWord
    | .protectedWord | .publicWord | .yield => true
    | _ => false

/-- The words that strict code bars from being bound although they read as identifiers. -/
def Word.isStrictReserved : Word → Bool
  | .enumWord | .implements | .interface | .letWord | .packageWord | .privateWord
  | .protectedWord | .publicWord | .static | .yield => true
  | _ => false

end Outdent.Syntax
