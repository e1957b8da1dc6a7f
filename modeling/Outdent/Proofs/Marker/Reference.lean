import Mathlib.Data.List.Sort
import Outdent.Marker.Usage
/-! # The text that a rewritten tree stands for

A rewrite told by recursion over the tree, without any edits. A node is its stretch of the document
with the stretches of its children put anew. Of a marked template the tag goes with its type
arguments, or the empty templates around it go, and its segments lose their indentation. -/
namespace Outdent.Marker.Reference

open Outdent.Syntax

/-- The text between two offsets, where parts of it, given in order, have a text of their own. -/
def fill (text : List Char) : (start stop : Nat) → List (Span × List Char) → List Char
  | start, stop, [] => Text.slice start stop text
  | start, stop, (r, t) :: parts =>
    Text.slice start r.start text ++ t ++ fill text r.stop stop parts

/-- The text of a span, where parts of it, given in any order, have a text of their own. -/
def restate (text : List Char) (r : Span) (parts : List (Span × List Char)) : List Char :=
  fill text r.start r.stop (parts.insertionSort fun p q => p.1.le q.1 = true)

/-- Whether a tag and a body are the two halves of a template between empty templates. -/
def isComposed (tag : Node) (body : Template Node) : Bool :=
  match tag with
  | .tagged _ (.template opening) _ _ =>
    Usage.isEmptyDelimiter opening && Usage.isEmptyDelimiter body
  | _ => false

def isMarked (names : List String) (tag : Node) : Bool :=
  tag.name?.any names.contains

def tagSpan (tag : Node) (typeArguments : Option Node) : Span :=
  ⟨tag.range.start, (typeArguments.map (·.range.stop)).getD tag.range.stop⟩

mutual

/-- The text of a node. A node within a wrapper stands between empty templates: it loses the one
that is its tag, and its own template is normalised. -/
def textOf (text : List Char) (names : List String) (wrapped : Bool) : Node → List Char
  | .identifier r _ => restate text r []
  | .template ⟨r, _, holes⟩ => restate text r (partsOf text names holes)
  | .importing ⟨r, _, _, attributes⟩ => restate text r (partsOf text names attributes)
  | .other _ r children => restate text r (partsOf text names children)
  | .tagged r tag typeArguments ⟨r', segments, holes⟩ =>
    let types := partsOfOption text names typeArguments
    let parts := partsOf text names holes
    let normalised := restate text r'
      (segments.map (fun s => (s.range, Segment.normalize s.raw)) ++ parts)
    if wrapped then restate text r ((tag.range, []) :: types ++ [(r', normalised)])
    else if isComposed tag ⟨r', segments, holes⟩ then
      restate text r ((tag.range, textOf text names true tag) :: types ++ [(r', [])])
    else if isMarked names tag then
      restate text r [(tagSpan tag typeArguments, []), (r', normalised)]
    else
      restate text r
        ((tag.range, textOf text names false tag) :: types ++ [(r', restate text r' parts)])

def partsOf (text : List Char) (names : List String) : List Node → List (Span × List Char)
  | [] => []
  | n :: ns => (n.range, textOf text names false n) :: partsOf text names ns

def partsOfOption (text : List Char) (names : List String) : Option Node → List (Span × List Char)
  | none => []
  | some n => [(n.range, textOf text names false n)]

end

def isRemoved (item : Node) : Bool := (importOf? item).any isMarkerImport

def textOfModule (text : List Char) (m : Module) : List Char :=
  restate text ⟨0, Text.byteLength text⟩
    (m.items.map fun n => (n.range, if isRemoved n then [] else textOf text (names m) false n))

/-- A marked template in a hole of another one, and the import that names the marker. -/
example :
    textOfModule "import d from 'rollup-plugin-dedent';d`\n a$\x7bd` b`\x7d`".toList
      ⟨[.importing ⟨⟨0, 37⟩, "rollup-plugin-dedent", [⟨.byDefault, "d"⟩], []⟩,
        .tagged ⟨37, 51⟩ (.identifier ⟨37, 38⟩ "d") none
          ⟨⟨38, 51⟩, [⟨⟨39, 42⟩, "\n a".toList⟩, ⟨⟨50, 50⟩, []⟩],
            [.tagged ⟨44, 49⟩ (.identifier ⟨44, 45⟩ "d") none
              ⟨⟨45, 49⟩, [⟨⟨46, 48⟩, " b".toList⟩], []⟩]⟩]⟩ =
      "`a$\x7b`b`\x7d`".toList := by decide +kernel

end Outdent.Marker.Reference
