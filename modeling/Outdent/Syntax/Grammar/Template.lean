import Outdent.Syntax.Grammar.Basic
/-! # Templates

A template alternates stretches of text with holes, which hold expressions, or types in a type. In
a template with a tag an escape sequence need not be well formed.
-/
namespace Outdent.Syntax.Grammar
open Reader

/-- What was read of a template: its parts, the latest first, and the delimiter that the next
stretch of text follows, none behind the closing one. -/
structure TemplateProgress where
  segments : List Segment
  holes : List Node
  openedBy : Option Nat

/-- Reads a stretch of template text behind the delimiter in hand, and the hole behind it. -/
def templateStep (hole : Reader Node) (isTagged : Bool) (read : TemplateProgress) :
    Reader (Option TemplateProgress) := do
  match read.openedBy with
  | none => return none
  | some delimiter =>
    let start := (← get).rest.position
    let text := TemplateText.ofInput (← get).rest
    if text.ending = .unterminated then failAt delimiter
    match text.badEscape with
    | some position => unless isTagged do failAt position
    | none => pure ()
    let segments := ⟨⟨start, text.stop⟩, text.raw⟩ :: read.segments
    resume text.rest
    if text.ending = .closed then return some ⟨segments, read.holes, none⟩
    let inside ← hole
    unless ← on .closeBrace do fail
    return some ⟨segments, inside :: read.holes, some (← here)⟩

def templateOf (hole : Reader Node) (isTagged : Bool) : Reader (Template Node) := do
  let start ← here
  let read ← repeating ⟨[], [], some start⟩ (templateStep hole isTagged)
  return ⟨← spanFrom start, read.segments.reverse, read.holes.reverse⟩

def template (g : Grammar) (isTagged : Bool) : Reader (Template Node) :=
  templateOf (within ({ · with inJoins := true }) (g .expression)) isTagged

/-- A template behind a tag. A chain that may stop half-way is no tag. -/
def taggedTemplate (g : Grammar) (tag : Node) (typeArguments : Option Node) : Reader Node := do
  let body ← template g true
  if tag.hasKind .optionalChain then report tag.start
  return .tagged (← spanFrom tag.start) tag typeArguments body

end Outdent.Syntax.Grammar
