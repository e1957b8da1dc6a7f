import Outdent.Syntax.Tree
/-! # Imports of the marker

The marker is a template tag that a module provides. It goes by its own name everywhere, and by
every name that an import of its module at the top of a script gives to it. Such imports have done
their work once the marked templates are rewritten, so all of them are removed.
-/
namespace Outdent.Marker

open Outdent.Syntax

def moduleName : String := "rollup-plugin-dedent"

def tagName : String := "dedent"

def isTag : Imported → Bool
  | .byDefault => true
  | .named name => name == tagName || name == "default"
  | .everything => false

def isMarkerImport (d : ImportDeclaration α) : Bool := d.source == moduleName

def importOf? : Node → Option (ImportDeclaration Node)
  | .importing d => some d
  | _ => none

/-- The imports of the marker's module at the top of a script, in source order. -/
def imports (m : Module) : List (ImportDeclaration Node) :=
  (m.items.filterMap importOf?).filter isMarkerImport

def namesIn (d : ImportDeclaration Node) : List String :=
  (d.bindings.filter (isTag ·.imported)).map (·.localName)

def aliases (m : Module) : List String := (imports m).flatMap namesIn

def names (m : Module) : List String := tagName :: aliases m

def insertName (name : String) : List String → List String
  | [] => [name]
  | n :: rest =>
    if name < n then name :: n :: rest
    else if name = n then n :: rest
    else n :: insertName name rest

def sortedNames (m : Module) : List String := (names m).foldr insertName []

def removedImports (m : Module) : List Span := (imports m).map (·.range)

end Outdent.Marker
