import Outdent.Proofs.Written.Outcome
/-! # The tree of a script fits its text

What an expression is made of stands in a row in its text, so do the spans of its tree. -/
namespace Outdent.Marker.Reference

open Syntax

variable {text cs : List Char} {p : Nat}

theorem Stands.valid (h : Stands text p cs) :
    Span.isValidIn text ⟨p, p + Text.byteLength cs⟩ = true := by
  obtain ⟨before, after, rfl, rfl⟩ := h
  have hstart : Text.isBoundary (Text.byteLength before) (before ++ (cs ++ after)) = true :=
    Text.isBoundary_byteLength _ _
  have hstop := Text.isBoundary_byteLength (before ++ cs) after
  refine Span.isValidIn_iff.mpr ⟨Nat.le_add_right _ _, ?_, by rwa [List.append_assoc], ?_⟩
  · simp
  · simpa using hstop

end Outdent.Marker.Reference

namespace Outdent.Syntax

theorem sequence_nil_iff {start stop : Nat} : Sequence start stop [] ↔ start ≤ stop := by
  simp [Sequence, Span.Follows]

theorem sequence_cons_iff {start stop : Nat} {r : Span} {rs : List Span} :
    Sequence start stop (r :: rs) ↔ start ≤ r.start ∧ Sequence r.stop stop rs := Iff.rfl

theorem Sequence.of_le {start start' stop : Nat} {rs : List Span} (h : Sequence start stop rs)
    (hle : start' ≤ start) : Sequence start' stop rs := by
  cases rs with
  | nil => exact sequence_nil_iff.mpr (Nat.le_trans hle (sequence_nil_iff.mp h))
  | cons r rs => exact ⟨Nat.le_trans hle h.1, h.2⟩

end Outdent.Syntax

namespace Outdent.Written

open Syntax Marker.Reference

/-- The tree of an expression fits a text wherever the expression stands there. -/
def Expression.IsLaid (text : List Char) (e : Expression) : Prop :=
  ∀ p, Stands text p e.core → (e.node p).Fits text

structure Body.FitsAt (text : List Char) (q : Nat) (b : Body) : Prop where
  count : (b.segments q).length = (b.holes q).length + 1
  row : Sequence q (q + Text.byteLength b.text)
    (interleave ((b.segments q).map (·.range)) ((b.holes q).map (·.range)))
  segments : ∀ s ∈ b.segments q, s.range.isValidIn text = true ∧
    s.raw = Text.slice s.range.start s.range.stop text
  holes : ∀ n ∈ b.holes q, n.Fits text

def Body.IsLaid (text : List Char) (b : Body) : Prop :=
  ∀ q, Stands text q b.text → b.FitsAt text q

structure Arguments.FitsAt (text : List Char) (q : Nat) (given : Arguments) : Prop where
  row : Sequence q (q + Text.byteLength given.text) ((given.nodes q).map (·.range))
  nodes : ∀ n ∈ given.nodes q, n.Fits text

def Arguments.IsLaid (text : List Char) (given : Arguments) : Prop :=
  ∀ q, Stands text q given.text → given.FitsAt text q

section
variable {text : List Char}

theorem Body.fits_template {b : Body} (hb : b.IsLaid text) {q : Nat}
    (h : Stands text q (Sign.backquote.char :: b.text)) :
    (Node.template (b.template q)).Fits text := by
  have hinside := hb _ h.tail
  have hvalid := h.valid
  rw [Sign.utf8Size_char] at hinside
  have hrange : (b.template q).range =
      ⟨q, q + Text.byteLength (Sign.backquote.char :: b.text)⟩ := by
    simp [template, Text.byteLength, Nat.add_assoc]
  refine Syntax.fits_template.mpr ⟨⟨hrange ▸ hvalid, ⟨hinside.count, ?_⟩, hinside.segments⟩,
    hinside.holes⟩
  exact hinside.row.of_le (Nat.le_succ q)

theorem fits_other_of_row {kind : Kind} {r : Span} {children : List Node}
    (hr : r.isValidIn text = true) (hrow : Sequence r.start r.stop (children.map (·.range)))
    (hfits : ∀ n ∈ children, n.Fits text) : (Node.other kind r children).Fits text := by
  refine fits_other.mpr ⟨hr, hrow.siblings (fun s hs => ?_) (List.Perm.refl _), hfits⟩
  obtain ⟨n, hn, rfl⟩ := List.mem_map.mp hs
  exact (Span.isValidIn_iff.mp (hfits n hn).valid).1

namespace Expression

theorem isLaid_named (v : Variable) : (named v).IsLaid text := by
  intro p h
  have hvalid := h.valid
  rwa [← length, length_named] at hvalid

theorem isLaid_quoted (q : Quoted) : (quoted q).IsLaid text := by
  intro p h
  have hvalid := h.valid
  rw [← length, length_quoted] at hvalid
  exact fits_other_of_row hvalid (sequence_nil_iff.mpr (Nat.le_add_right _ _)) (by simp)

theorem isLaid_tagged {tag : Expression} {body : Body} (htag : tag.IsLaid text)
    (hbody : body.IsLaid text) : (tagged tag body).IsLaid text := by
  intro p h
  have hvalid := h.valid
  obtain ⟨hopening, hquote⟩ := stands_tagged h
  obtain ⟨hfits, hholes⟩ := Syntax.fits_template.mp (body.fits_template hbody hquote)
  rw [← length, ← range_node, node_tagged] at hvalid
  rw [node_tagged]
  refine fits_tagged.mpr ⟨hvalid, ?_, htag p hopening, by simp, hfits, hholes⟩
  simp only [Option.toList_none, List.map_nil, List.nil_append, sequence_cons_iff, sequence_nil_iff,
    range_node, Body.template, length_tagged]
  omega

theorem isLaid_member {object : Expression} (hobject : object.IsLaid text) (g : Spacing)
    (name : Name) : (member object g name).IsLaid text := by
  intro p h
  have hvalid := h.valid
  obtain ⟨hobjectAt, hname⟩ := stands_member h
  rw [← length, ← range_node] at hvalid
  refine fits_other_of_row hvalid ?_ ?_
  · simp only [List.map_cons, List.map_nil, sequence_cons_iff, sequence_nil_iff, range_node]
    simp only [Node.range]
    omega
  · exact List.forall_mem_cons.mpr ⟨hobject p hobjectAt, List.forall_mem_singleton.mpr
      (fits_other_of_row hname.valid (sequence_nil_iff.mpr (Nat.le_add_right _ _)) (by simp))⟩

theorem isLaid_call {callee : Expression} {given : Arguments} (hcallee : callee.IsLaid text)
    (hgiven : given.IsLaid text) : (call callee given).IsLaid text := by
  intro p h
  have hvalid := h.valid
  obtain ⟨hcalleeAt, hinside⟩ := stands_call h
  have hgivenAt := hgiven _ hinside
  rw [← length, ← range_node] at hvalid
  refine fits_other_of_row hvalid ?_ (List.forall_mem_cons.mpr ⟨hcallee p hcalleeAt,
    hgivenAt.nodes⟩)
  rw [List.map_cons, sequence_cons_iff, range_node]
  refine ⟨Nat.le_refl _, hgivenAt.row.of_le ?_⟩
  simp only
  omega

end Expression

theorem Body.isLaid_last (raw : List Char) : (last raw).IsLaid text := by
  intro q h
  have hraw : Stands text q raw := h.left
  refine ⟨rfl, ?_, List.forall_mem_singleton.mpr ⟨hraw.valid, hraw.slice.symm⟩, by simp [holes]⟩
  simp [segments, holes, interleave, sequence_cons_iff, sequence_nil_iff, Body.text]

theorem Body.isLaid_hole {raw : List Char} {inside : Expression} {rest : Body}
    (hinside : inside.IsLaid text) (hrest : rest.IsLaid text) :
    (hole raw inside rest).IsLaid text := by
  intro q h
  obtain ⟨hraw, hinsideAt, hrestAt⟩ := stands_hole h
  have hbehind := hrest _ hrestAt
  have hstop : q + Text.byteLength (hole raw inside rest).text =
      q + Text.byteLength raw + 2 + Text.byteLength inside.text + 1 +
        Text.byteLength rest.text := by
    have hdelimiter : Text.byteLength TemplateEnd.hole.delimiter = 2 := rfl
    simp [text_hole, Text.byteLength, hdelimiter, Nat.add_assoc]
  refine ⟨?_, ?_, ?_, ?_⟩
  · simp [segments, holes, hbehind.count]
  · rw [hstop, segments, holes, List.map_cons, List.map_cons, interleave, sequence_cons_iff,
      sequence_cons_iff, Expression.range_node]
    refine ⟨Nat.le_refl _, by simp only; omega, hbehind.row.of_le ?_⟩
    simp only [inside.byteLength_text]
    omega
  · exact List.forall_mem_cons.mpr ⟨⟨hraw.valid, hraw.slice.symm⟩, hbehind.segments⟩
  · exact List.forall_mem_cons.mpr ⟨hinside _ hinsideAt, hbehind.holes⟩

namespace Arguments

theorem isLaid_closed (g : Spacing) : (closed g).IsLaid text := by
  intro q h
  exact ⟨sequence_nil_iff.mpr (Nat.le_add_right _ _), by simp [nodes]⟩

theorem isLaid_last {inside : Expression} (hinside : inside.IsLaid text) :
    (last inside).IsLaid text := by
  intro q h
  refine ⟨?_, List.forall_mem_singleton.mpr (hinside _ (stands_last h))⟩
  rw [nodes, List.map_cons, List.map_nil, sequence_cons_iff, sequence_nil_iff,
    Expression.range_node, text_last, Text.byteLength_append, inside.byteLength_text]
  simp only
  omega

theorem isLaid_more {inside : Expression} {rest : Arguments} (hinside : inside.IsLaid text)
    (hrest : rest.IsLaid text) : (more inside rest).IsLaid text := by
  intro q h
  obtain ⟨hinsideAt, hrestAt⟩ := stands_more h
  have hbehind := hrest _ hrestAt
  have hstop : q + Text.byteLength (more inside rest).text =
      q + Text.byteLength inside.text + 1 + Text.byteLength rest.text := by
    simp [text_more, Text.byteLength, Nat.add_assoc]
  refine ⟨?_, List.forall_mem_cons.mpr ⟨hinside _ hinsideAt, hbehind.nodes⟩⟩
  rw [hstop, nodes, List.map_cons, sequence_cons_iff, Expression.range_node]
  refine ⟨by simp only; omega, hbehind.row.of_le ?_⟩
  simp only [inside.byteLength_text]
  omega

end Arguments

end

section
variable (text : List Char)

mutual

theorem Expression.isLaid : (e : Expression) → e.IsLaid text
  | .named v => Expression.isLaid_named v
  | .quoted q => Expression.isLaid_quoted q
  | .template body => fun _ h => Body.fits_template body.isLaid h
  | .tagged tag body => Expression.isLaid_tagged tag.isLaid body.isLaid
  | .member object g name => Expression.isLaid_member object.isLaid g name
  | .call callee given => Expression.isLaid_call callee.isLaid given.isLaid
  | .spaced _ inside _ => inside.isLaid

theorem Body.isLaid : (b : Body) → b.IsLaid text
  | .last raw => Body.isLaid_last raw
  | .hole _ inside rest => Body.isLaid_hole inside.isLaid rest.isLaid

theorem Arguments.isLaid : (given : Arguments) → given.IsLaid text
  | .closed g => Arguments.isLaid_closed g
  | .last inside => Arguments.isLaid_last inside.isLaid
  | .more inside rest => Arguments.isLaid_more inside.isLaid rest.isLaid

end

theorem Item.fits_plain (g : Spacing) (isClosed : Bool) (e : Expression) {q : Nat}
    (h : Stands text (q + Text.byteLength (g.text ++ e.before.text))
      (Item.mk g (.plain e) isClosed).old) :
    ((Item.mk g (.plain e) isClosed).node q).Fits text := by
  let i : Item := ⟨g, .plain e, isClosed⟩
  let p := q + Text.byteLength (g.text ++ e.before.text)
  have hold : Stands text p (e.core ++ i.closed) := h
  have hrange : (i.node q).range = ⟨p, p + Text.byteLength (e.core ++ i.closed)⟩ := i.range_node q
  have hnode : i.node q = .other .statement (i.node q).range [e.node p] := by
    simp [i, p, node, Statement.node, Statement.before, Node.range, Nat.add_assoc]
  change (i.node q).Fits text
  rw [hnode, hrange]
  refine fits_other_of_row hold.valid ?_ (List.forall_mem_singleton.mpr
    (e.isLaid text p hold.left))
  simp only [List.map_cons, List.map_nil, sequence_cons_iff, sequence_nil_iff, e.range_node,
    Text.byteLength_append, Expression.length]
  exact ⟨Nat.le_refl _, by omega⟩

theorem Declarator.fits_node {name : Variable} {g : Spacing} {value : Expression} {t : Nat}
    (h : Stands text t (Declarator.text name g value)) : (node t name g value).Fits text := by
  have hvalid := h.valid
  obtain ⟨hname, hvalue⟩ := stands_text h
  rw [← range_node] at hvalid
  refine fits_other_of_row hvalid ?_ (List.forall_mem_cons.mpr ⟨hname.valid,
    List.forall_mem_singleton.mpr (value.isLaid text _ hvalue)⟩)
  simp only [List.map_cons, List.map_nil, sequence_cons_iff, sequence_nil_iff, value.range_node]
  simp only [Node.range]
  omega

theorem Item.fits_constant (g : Spacing) (isClosed : Bool) (g₁ : Parting) (name : Variable)
    (g₂ : Spacing) (value : Expression) {q : Nat}
    (h : Stands text (q + Text.byteLength (g.text ++ []))
      (Item.mk g (.constant g₁ name g₂ value) isClosed).old) :
    ((Item.mk g (.constant g₁ name g₂ value) isClosed).node q).Fits text := by
  rw [List.append_nil, old_constant] at h
  have hvalid := h.valid
  rw [Text.byteLength_append, ← Nat.add_assoc] at hvalid
  rw [node_constant]
  refine fits_other_of_row hvalid ?_ (List.forall_mem_singleton.mpr
    (Declarator.fits_node text h.right))
  simp only [List.map_cons, List.map_nil, sequence_cons_iff, sequence_nil_iff,
    Declarator.range_node]
  exact ⟨by omega, Nat.le_refl _⟩

theorem Item.fits_node (i : Item) {q : Nat} (h : Stands text
    (q + Text.byteLength (i.space.text ++ i.content.before.text)) i.old) :
    (i.node q).Fits text := by
  obtain ⟨g, content, isClosed⟩ := i
  cases content with
  | imported g₁ name g₂ g₃ source =>
    have hvalid := h.valid
    rw [← Item.range_node] at hvalid
    exact fits_importing.mpr ⟨hvalid, ⟨by simp, List.Pairwise.nil⟩, by simp⟩
  | constant g₁ name g₂ value => exact fits_constant text g isClosed g₁ name g₂ value h
  | plain e => exact fits_plain text g isClosed e h

theorem nodesOfItems_fit (ending : Spacing) : (items : List Item) → (q : Nat) →
    Stands text q (textOfItems items ending) →
      (∀ n ∈ nodesOfItems q items, n.Fits text) ∧
        Sequence q (q + Text.byteLength (textOfItems items ending))
          ((nodesOfItems q items).map (·.range))
  | [], q, h => ⟨by simp [nodesOfItems], sequence_nil_iff.mpr (Nat.le_add_right _ _)⟩
  | i :: items, q, h => by
    rw [textOfItems_cons] at h
    have hitem := h.left
    rw [i.text_eq] at hitem
    obtain ⟨hfits, hrow⟩ := nodesOfItems_fit ending items (q + Text.byteLength i.text) h.right
    refine ⟨List.forall_mem_cons.mpr ⟨i.fits_node text hitem.right.left, hfits⟩, ?_⟩
    rw [textOfItems_cons, Text.byteLength_append, ← Nat.add_assoc, nodesOfItems, List.map_cons,
      sequence_cons_iff, i.range_node]
    refine ⟨by simp only; omega, hrow.of_le ?_⟩
    simp only [i.text_eq, Text.byteLength_append]
    omega

theorem module_fits (s : Script) : s.module.Fits s.text := by
  have hwhole : Stands s.text 0 (textOfItems s.items s.ending) :=
    ⟨[], [], by simp [Script.text], rfl⟩
  obtain ⟨hfits, hrow⟩ := nodesOfItems_fit s.text s.ending s.items 0 hwhole
  refine ⟨?_, hfits⟩
  rw [Nat.zero_add] at hrow
  refine hrow.siblings (fun r hr => ?_) (List.Perm.refl _)
  obtain ⟨n, hn, rfl⟩ := List.mem_map.mp hr
  exact (Span.isValidIn_iff.mp (hfits n hn).valid).1

end

end Outdent.Written
