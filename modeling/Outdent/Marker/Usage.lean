import Outdent.Marker.Import
import Outdent.Segment
/-! # Usages of the marker

A template is marked by the marker as its tag, or by an empty template on either side of it. A
usage tells what is removed and which template is normalised. Usages are found anywhere in a tree,
an outer one before those within it.
-/
namespace Outdent.Marker

open Outdent.Syntax

inductive Usage where
  /-- The marker is the tag; its bytes include the type arguments behind it. -/
  | direct (tag : Span) (body : Template Node)
  | composed (opening closing : Span) (body : Template Node)

namespace Usage

def removals : Usage → List Span
  | .direct tag _ => [tag]
  | .composed opening closing _ => [opening, closing]

def body : Usage → Template Node
  | .direct _ body => body
  | .composed _ _ body => body

def isDirect : Usage → Bool
  | .direct _ _ => true
  | .composed _ _ _ => false

def isEmptyDelimiter : Template Node → Bool
  | ⟨_, [segment], []⟩ => segment.raw.isEmpty
  | _ => false

/-- The usage that a tagged template is, if it is one, where the marker goes by some names. -/
def of? (names : List String) (tag : Node) (typeArguments : Option Node)
    (body : Template Node) : Option Usage :=
  match tag with
  | .tagged _ (.template opening) _ inner =>
    if isEmptyDelimiter opening && isEmptyDelimiter body then
      some (.composed opening.range body.range inner)
    else none
  | .identifier range name =>
    if names.contains name then
      some (.direct ⟨range.start, (typeArguments.map (·.range.stop)).getD range.stop⟩ body)
    else none
  | _ => none

/-- The edits that normalise a template: one for each segment, apart from those where nothing
stands and nothing comes. -/
def replacements (body : Template Node) : List Edit :=
  body.segments.filterMap fun segment =>
    let text := Segment.normalize segment.raw
    if segment.range.stop ≤ segment.range.start && text.isEmpty then none
    else some (.replace segment.range text)

def edits (u : Usage) : List Edit := u.removals.map .delete ++ replacements u.body

mutual

def inNode (names : List String) : Node → List Usage
  | .identifier _ _ => []
  | .template ⟨_, _, holes⟩ => inNodes names holes
  | .tagged _ tag typeArguments ⟨range, segments, holes⟩ =>
    (of? names tag typeArguments ⟨range, segments, holes⟩).toList ++ inNode names tag ++
      inOption names typeArguments ++ inNodes names holes
  | .importing ⟨_, _, _, attributes⟩ => inNodes names attributes
  | .other _ _ children => inNodes names children

def inNodes (names : List String) : List Node → List Usage
  | [] => []
  | n :: rest => inNode names n ++ inNodes names rest

def inOption (names : List String) : Option Node → List Usage
  | none => []
  | some n => inNode names n

end

end Usage

def usages (m : Module) : List Usage := Usage.inNodes (names m) m.items

def edits (m : Module) : List Edit :=
  (removedImports m).map .delete ++ (usages m).flatMap Usage.edits

structure Stats where
  importsRemoved : Nat
  directMatches : Nat
  composedMatches : Nat
  segments : Nat
deriving DecidableEq

def Stats.ofModule (m : Module) : Stats where
  importsRemoved := (removedImports m).length
  directMatches := ((usages m).filter Usage.isDirect).length
  composedMatches := ((usages m).filter (! ·.isDirect)).length
  segments := ((usages m).flatMap (·.body.segments)).length

def Stats.hasMatches (s : Stats) : Bool :=
  0 < s.importsRemoved + s.directMatches + s.composedMatches

end Outdent.Marker
