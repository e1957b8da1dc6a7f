import Outdent.Proofs.Syntax.Layout
/-! # Nodes within a node

Every node of a tree is reached from above by going down, one node at a time. What holds of a tree
that fits a text holds of each node in it. -/
namespace Outdent.Syntax

namespace Node

/-- The nodes right below a node, in source order. -/
def subnodes : Node → List Node
  | .identifier _ _ => []
  | .template body => body.holes
  | .tagged _ tag typeArguments body => tag :: (typeArguments.toList ++ body.holes)
  | .importing d => d.attributes
  | .other _ _ children => children

/-- Whether a node is another one or stands somewhere within it. -/
inductive Contains : Node → Node → Prop where
  | self (n : Node) : Contains n n
  | step {n m k : Node} : m ∈ n.subnodes → Contains m k → Contains n k

theorem Contains.trans {n m k : Node} (h : n.Contains m) (hk : m.Contains k) : n.Contains k := by
  induction h with
  | self n => exact hk
  | step hm _ ih => exact .step hm (ih hk)

/-- Identifiers and templates take up at least one byte. -/
def IsSolid : Node → Prop
  | .identifier r _ => r.start < r.stop
  | .template body => body.range.start < body.range.stop
  | .tagged _ _ _ body => body.range.start < body.range.stop
  | _ => True

instance : (n : Node) → Decidable n.IsSolid
  | .identifier _ _ => inferInstanceAs (Decidable (_ < _))
  | .template _ => inferInstanceAs (Decidable (_ < _))
  | .tagged _ _ _ _ => inferInstanceAs (Decidable (_ < _))
  | .importing _ => isTrue trivial
  | .other _ _ _ => isTrue trivial

end Node

section
variable {text : List Char} {n m : Node}

theorem Node.Fits.of_mem_subnodes (h : n.Fits text) (hm : m ∈ n.subnodes) : m.Fits text := by
  cases n with
  | identifier r name => exact absurd hm List.not_mem_nil
  | template body => exact (fits_template.mp h).2 m hm
  | tagged r tag typeArguments body =>
    obtain ⟨-, -, htag, hT, -, hholes⟩ := fits_tagged.mp h
    rcases List.mem_cons.mp hm with rfl | hm
    · exact htag
    · rcases List.mem_append.mp hm with hm | hm
      · exact hT m (Option.mem_toList.mp hm)
      · exact hholes m hm
  | importing d => exact (fits_importing.mp h).2.2 m hm
  | other kind r children => exact (fits_other.mp h).2.2 m hm

theorem Node.Fits.within_of_mem_subnodes (h : n.Fits text) (hm : m ∈ n.subnodes) :
    m.range.Within n.range := by
  cases n with
  | identifier r name => exact absurd hm List.not_mem_nil
  | template body =>
    obtain ⟨hb, hholes⟩ := fits_template.mp h
    exact (hb.siblings hholes).within _ (List.mem_append_right _ (List.mem_map_of_mem hm))
  | tagged r tag typeArguments body =>
    obtain ⟨-, -, -, -, hb, hholes⟩ := fits_tagged.mp h
    have hs := siblings_of_tagged h
    rcases List.mem_cons.mp hm with rfl | hm
    · exact hs.within _ List.mem_cons_self
    · rcases List.mem_append.mp hm with hm | hm
      · exact hs.within _ (List.mem_cons_of_mem _ (List.mem_append_left _ (List.mem_map_of_mem hm)))
      · have hbody : body.range.Within r := hs.within _ (by simp)
        exact ((hb.siblings hholes).within _
          (List.mem_append_right _ (List.mem_map_of_mem hm))).trans hbody
  | importing d => exact (fits_importing.mp h).2.1.within _ (List.mem_map_of_mem hm)
  | other kind r children => exact (fits_other.mp h).2.1.within _ (List.mem_map_of_mem hm)

theorem Node.Fits.of_contains (h : n.Fits text) (hm : n.Contains m) : m.Fits text := by
  induction hm with
  | self n => exact h
  | step hb _ ih => exact ih (h.of_mem_subnodes hb)

/-- What is within a node lies within its bytes. -/
theorem Node.Fits.within_of_contains (h : n.Fits text) (hm : n.Contains m) :
    m.range.Within n.range := by
  induction hm with
  | self n => exact Span.Within.refl _
  | step hb _ ih => exact (ih (h.of_mem_subnodes hb)).trans (h.within_of_mem_subnodes hb)

end

/-- Induction over trees, where a node may use what holds of all nodes right below it. -/
@[elab_as_elim]
theorem Node.subnodes_induction {motive : Node → Prop}
    (node : ∀ n, (∀ m ∈ n.subnodes, motive m) → motive n) (n : Node) : motive n := by
  induction n using Node.induction with
  | identifier r name => exact node _ fun m hm => absurd hm List.not_mem_nil
  | template body ih => exact node _ ih
  | tagged r tag typeArguments body ihtag ihT ihholes =>
    refine node _ fun m hm => ?_
    rcases List.mem_cons.mp hm with rfl | hm
    · exact ihtag
    · rcases List.mem_append.mp hm with hm | hm
      · exact ihT m (Option.mem_toList.mp hm)
      · exact ihholes m hm
  | importing d ih => exact node _ ih
  | other kind r children ih => exact node _ ih

mutual

/-- A node and all the nodes within it, an outer one before those within. -/
def Node.nodes : Node → List Node
  | .identifier r name => [.identifier r name]
  | .template ⟨r, segments, holes⟩ => .template ⟨r, segments, holes⟩ :: nodesOfAll holes
  | .tagged r tag typeArguments ⟨r', segments, holes⟩ =>
    .tagged r tag typeArguments ⟨r', segments, holes⟩ ::
      (tag.nodes ++ (nodesOfAny typeArguments ++ nodesOfAll holes))
  | .importing ⟨r, source, bindings, attributes⟩ =>
    .importing ⟨r, source, bindings, attributes⟩ :: nodesOfAll attributes
  | .other kind r children => .other kind r children :: nodesOfAll children

def nodesOfAll : List Node → List Node
  | [] => []
  | n :: ns => n.nodes ++ nodesOfAll ns

def nodesOfAny : Option Node → List Node
  | none => []
  | some n => n.nodes

end

theorem nodesOfAll_eq (ns : List Node) : nodesOfAll ns = ns.flatMap Node.nodes := by
  induction ns with
  | nil => rfl
  | cons n ns ih => simp [nodesOfAll, ih]

theorem nodesOfAny_eq (n : Option Node) : nodesOfAny n = n.toList.flatMap Node.nodes := by
  cases n <;> simp [nodesOfAny]

theorem nodes_eq (n : Node) : n.nodes = n :: n.subnodes.flatMap Node.nodes := by
  cases n with
  | identifier r name => rfl
  | template body =>
    cases body
    rw [Node.nodes, nodesOfAll_eq]
    rfl
  | tagged r tag typeArguments body =>
    cases body
    rw [Node.nodes, nodesOfAll_eq, nodesOfAny_eq]
    simp [Node.subnodes]
  | importing d =>
    cases d
    rw [Node.nodes, nodesOfAll_eq]
    rfl
  | other kind r children =>
    rw [Node.nodes, nodesOfAll_eq]
    rfl

theorem mem_nodes {n k : Node} : k ∈ n.nodes ↔ n.Contains k := by
  constructor
  · intro hk
    induction n using Node.subnodes_induction with
    | node n ih =>
      rw [nodes_eq] at hk
      rcases List.mem_cons.mp hk with rfl | hk
      · exact .self _
      · obtain ⟨m, hm, hk⟩ := List.mem_flatMap.mp hk
        exact .step hm (ih m hm hk)
  · intro hk
    induction hk with
    | self n =>
      rw [nodes_eq]
      exact List.mem_cons_self
    | step hm _ ih =>
      rw [nodes_eq]
      exact List.mem_cons_of_mem _ (List.mem_flatMap.mpr ⟨_, hm, ih⟩)

instance (n : Node) (P : Node → Prop) [DecidablePred P] : Decidable (∀ k, n.Contains k → P k) :=
  decidable_of_iff (∀ k ∈ n.nodes, P k) (by simp only [mem_nodes])

instance (n : Node) (P : Node → Prop) [DecidablePred P] : Decidable (∃ k, n.Contains k ∧ P k) :=
  decidable_of_iff (∃ k ∈ n.nodes, P k) (by simp only [mem_nodes])

def Module.nodes (m : Module) : List Node := m.items.flatMap Node.nodes

def Module.IsSolid (m : Module) : Prop := ∀ n ∈ m.items, ∀ k, n.Contains k → k.IsSolid

instance (m : Module) : Decidable m.IsSolid := inferInstanceAs (Decidable (∀ _ ∈ _, _))

end Outdent.Syntax
