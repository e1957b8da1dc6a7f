import Outdent.Proofs.Marker.Reference
import Outdent.Proofs.Syntax.Layout
/-! # The rewritten tree

What a rewrite means for the tree of a script: the imports of the marker's module go, and a template
without its tag or the empty templates around it stands where a marked one stood. Spans are moved by
a function, and where all of them are moved to one place the form of the tree remains. -/
namespace Outdent

namespace Syntax

def Segment.move (f : Span → Span) (s : Segment) : Segment := ⟨f s.range, s.raw⟩

mutual

def Node.move (f : Span → Span) : Node → Node
  | .identifier r name => .identifier (f r) name
  | .template ⟨r, segments, holes⟩ =>
    .template ⟨f r, segments.map (Segment.move f), moveAll f holes⟩
  | .tagged r tag typeArguments ⟨r', segments, holes⟩ =>
    .tagged (f r) (tag.move f) (moveAny f typeArguments)
      ⟨f r', segments.map (Segment.move f), moveAll f holes⟩
  | .importing ⟨r, source, bindings, attributes⟩ =>
    .importing ⟨f r, source, bindings, moveAll f attributes⟩
  | .other kind r children => .other kind (f r) (moveAll f children)

def moveAll (f : Span → Span) : List Node → List Node
  | [] => []
  | n :: ns => n.move f :: moveAll f ns

def moveAny (f : Span → Span) : Option Node → Option Node
  | none => none
  | some n => some (n.move f)

end

/-- The one place that all spans are moved to where positions do not matter. -/
def nowhere : Span → Span := fun _ => ⟨0, 0⟩

def Node.form (n : Node) : Node := n.move nowhere

def Module.form (m : Module) : Module := ⟨moveAll nowhere m.items⟩

theorem moveAll_eq (f : Span → Span) (ns : List Node) : moveAll f ns = ns.map (Node.move f) := by
  induction ns with
  | nil => rfl
  | cons n ns ih => simp [moveAll, ih]

theorem moveAny_eq (f : Span → Span) (n : Option Node) : moveAny f n = n.map (Node.move f) := by
  cases n <;> rfl

def Template.move (f : Span → Span) (body : Template Node) : Template Node :=
  ⟨f body.range, body.segments.map (Segment.move f), body.holes.map (Node.move f)⟩

theorem move_template (f : Span → Span) (body : Template Node) :
    (Node.template body).move f = .template (body.move f) := by
  cases body
  rw [Template.move, ← moveAll_eq]
  rfl

theorem move_tagged (f : Span → Span) (r : Span) (tag : Node) (typeArguments : Option Node)
    (body : Template Node) : (Node.tagged r tag typeArguments body).move f =
      .tagged (f r) (tag.move f) (typeArguments.map (Node.move f)) (body.move f) := by
  cases body
  rw [Template.move, ← moveAll_eq, ← moveAny_eq]
  rfl

theorem move_importing (f : Span → Span) (d : ImportDeclaration Node) :
    (Node.importing d).move f =
      .importing ⟨f d.range, d.source, d.bindings, d.attributes.map (Node.move f)⟩ := by
  cases d
  rw [← moveAll_eq]
  rfl

theorem move_other (f : Span → Span) (kind : Kind) (r : Span) (children : List Node) :
    (Node.other kind r children).move f = .other kind (f r) (children.map (Node.move f)) := by
  rw [← moveAll_eq]
  rfl

end Syntax

namespace Marker

open Syntax Reference

def normaliseSegment (f : Span → Span) (s : Segment) : Segment :=
  ⟨f s.range, Segment.normalize s.raw⟩

mutual

/-- What becomes of a node, with its spans moved. A node within a wrapper stands between empty
templates, and its own template remains of it. -/
def rewritten (f : Span → Span) (names : List String) (wrapped : Bool) : Node → Node
  | .identifier r name => .identifier (f r) name
  | .template ⟨r, segments, holes⟩ =>
    .template ⟨f r, segments.map (Segment.move f), rewrittenAll f names holes⟩
  | .importing ⟨r, source, bindings, attributes⟩ =>
    .importing ⟨f r, source, bindings, rewrittenAll f names attributes⟩
  | .other kind r children => .other kind (f r) (rewrittenAll f names children)
  | .tagged r tag typeArguments ⟨r', segments, holes⟩ =>
    let normalised : Template Node :=
      ⟨f r', segments.map (normaliseSegment f), rewrittenAll f names holes⟩
    if wrapped then .template normalised
    else if isComposed tag ⟨r', segments, holes⟩ then rewritten f names true tag
    else if isMarked names tag then .template normalised
    else .tagged (f r) (rewritten f names false tag) (rewrittenAny f names typeArguments)
      ⟨f r', segments.map (Segment.move f), rewrittenAll f names holes⟩

def rewrittenAll (f : Span → Span) (names : List String) : List Node → List Node
  | [] => []
  | n :: ns => rewritten f names false n :: rewrittenAll f names ns

def rewrittenAny (f : Span → Span) (names : List String) : Option Node → Option Node
  | none => none
  | some n => some (rewritten f names false n)

end

def rewrittenModule (f : Span → Span) (m : Module) : Module :=
  ⟨rewrittenAll f (names m) (m.items.filter fun n => !isRemoved n)⟩

variable (f : Span → Span) (names : List String)

theorem rewrittenAll_eq (ns : List Node) :
    rewrittenAll f names ns = ns.map (rewritten f names false) := by
  induction ns with
  | nil => rfl
  | cons n ns ih => simp [rewrittenAll, ih]

theorem rewrittenAny_eq (n : Option Node) :
    rewrittenAny f names n = n.map (rewritten f names false) := by
  cases n <;> rfl

def plainTemplate (body : Template Node) : Template Node :=
  ⟨f body.range, body.segments.map (Segment.move f), body.holes.map (rewritten f names false)⟩

def normalisedTemplate (body : Template Node) : Template Node :=
  ⟨f body.range, body.segments.map (normaliseSegment f),
    body.holes.map (rewritten f names false)⟩

theorem rewritten_template (wrapped : Bool) (body : Template Node) :
    rewritten f names wrapped (.template body) = .template (plainTemplate f names body) := by
  cases body
  rw [plainTemplate, ← rewrittenAll_eq]
  rfl

theorem rewritten_importing (wrapped : Bool) (d : ImportDeclaration Node) :
    rewritten f names wrapped (.importing d) = .importing
      ⟨f d.range, d.source, d.bindings, d.attributes.map (rewritten f names false)⟩ := by
  cases d
  rw [← rewrittenAll_eq]
  rfl

theorem rewritten_other (wrapped : Bool) (kind : Kind) (r : Span) (children : List Node) :
    rewritten f names wrapped (.other kind r children) =
      .other kind (f r) (children.map (rewritten f names false)) := by
  rw [← rewrittenAll_eq]
  rfl

theorem rewritten_tagged (wrapped : Bool) (r : Span) (tag : Node) (typeArguments : Option Node)
    (body : Template Node) : rewritten f names wrapped (.tagged r tag typeArguments body) =
      if wrapped then .template (normalisedTemplate f names body)
      else if isComposed tag body then rewritten f names true tag
      else if isMarked names tag then .template (normalisedTemplate f names body)
      else .tagged (f r) (rewritten f names false tag)
        (typeArguments.map (rewritten f names false)) (plainTemplate f names body) := by
  cases body
  rw [plainTemplate, normalisedTemplate, ← rewrittenAll_eq, ← rewrittenAny_eq]
  rfl

end Marker

end Outdent
