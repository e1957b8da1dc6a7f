import Mathlib.Tactic.Common
import Outdent.Marker.Usage
/-! # Usages in a tree

The usages in a node are its own, if it is one, and those of the nodes right below it. -/
namespace Outdent.Marker

open Outdent.Syntax

namespace Usage

variable {names : List String}

theorem inNodes_eq (ns : List Node) : inNodes names ns = ns.flatMap (inNode names) := by
  induction ns with
  | nil => rfl
  | cons n ns ih => simp [inNodes, ih]

theorem inOption_eq (n : Option Node) : inOption names n = n.toList.flatMap (inNode names) := by
  cases n <;> simp [inOption]

theorem inNode_template (body : Template Node) :
    inNode names (.template body) = body.holes.flatMap (inNode names) := by
  cases body
  rw [inNode, inNodes_eq]

theorem inNode_tagged (r : Span) (tag : Node) (typeArguments : Option Node)
    (body : Template Node) : inNode names (.tagged r tag typeArguments body) =
      (of? names tag typeArguments body).toList ++ inNode names tag ++
        typeArguments.toList.flatMap (inNode names) ++ body.holes.flatMap (inNode names) := by
  cases body
  rw [inNode, inOption_eq, inNodes_eq]

theorem inNode_importing (d : ImportDeclaration Node) :
    inNode names (.importing d) = d.attributes.flatMap (inNode names) := by
  cases d
  rw [inNode, inNodes_eq]

theorem inNode_other (kind : Kind) (r : Span) (children : List Node) :
    inNode names (.other kind r children) = children.flatMap (inNode names) := by
  rw [inNode, inNodes_eq]

theorem mem_edits_direct {tag : Span} {body : Template Node} {e : Edit} :
    e ∈ (direct tag body).edits ↔ e = .delete tag ∨ e ∈ replacements body := by
  simp [edits, removals, Usage.body]

theorem mem_edits_composed {opening closing : Span} {body : Template Node} {e : Edit} :
    e ∈ (composed opening closing body).edits ↔
      e = .delete opening ∨ e = .delete closing ∨ e ∈ replacements body := by
  simp [edits, removals, Usage.body]

end Usage

def editsIn (names : List String) (n : Node) : List Edit :=
  (Usage.inNode names n).flatMap Usage.edits

section
variable {names : List String} {e : Edit}

theorem mem_editsIn_template {body : Template Node} :
    e ∈ editsIn names (.template body) ↔ ∃ h ∈ body.holes, e ∈ editsIn names h := by
  simp only [editsIn, Usage.inNode_template, List.flatMap_assoc, List.mem_flatMap]

theorem mem_editsIn_tagged {r : Span} {tag : Node} {typeArguments : Option Node}
    {body : Template Node} : e ∈ editsIn names (.tagged r tag typeArguments body) ↔
      (∃ u ∈ Usage.of? names tag typeArguments body, e ∈ u.edits) ∨ e ∈ editsIn names tag ∨
        (∃ t ∈ typeArguments, e ∈ editsIn names t) ∨ ∃ h ∈ body.holes, e ∈ editsIn names h := by
  simp only [editsIn, Usage.inNode_tagged, List.flatMap_append, List.flatMap_assoc,
    List.mem_append, List.mem_flatMap, Option.mem_toList, Option.mem_def, or_assoc]

theorem mem_editsIn_importing {d : ImportDeclaration Node} :
    e ∈ editsIn names (.importing d) ↔ ∃ a ∈ d.attributes, e ∈ editsIn names a := by
  simp only [editsIn, Usage.inNode_importing, List.flatMap_assoc, List.mem_flatMap]

theorem mem_editsIn_other {kind : Kind} {r : Span} {children : List Node} :
    e ∈ editsIn names (.other kind r children) ↔ ∃ c ∈ children, e ∈ editsIn names c := by
  simp only [editsIn, Usage.inNode_other, List.flatMap_assoc, List.mem_flatMap]

theorem editsIn_identifier (r : Span) (name : String) :
    editsIn names (.identifier r name) = [] := rfl

end

theorem mem_edits {m : Module} {e : Edit} : e ∈ edits m ↔
    (∃ d ∈ imports m, e = .delete d.range) ∨ ∃ n ∈ m.items, e ∈ editsIn (names m) n := by
  simp only [edits, usages, removedImports, editsIn, Usage.inNodes_eq, List.flatMap_assoc,
    List.mem_append, List.mem_flatMap, List.map_map, List.mem_map, Function.comp_apply]
  simp only [eq_comm]

end Outdent.Marker
