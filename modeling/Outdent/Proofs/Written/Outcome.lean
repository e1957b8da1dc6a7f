import Outdent.Proofs.Written.Restating
/-! # The text of a rewritten script

The text that the rewritten tree of a script stands for is the one that the rewritten script is
spelled out with. -/
namespace Outdent.Written

open Syntax Marker.Reference

namespace Declarator

/-- The text between the name of a constant and its value. -/
def between (g : Spacing) (value : Expression) : List Char :=
  g.text ++ Sign.assign.char :: value.before.text

def text (name : Variable) (g : Spacing) (value : Expression) : List Char :=
  name.chars ++ (between g value ++ value.core)

def node (t : Nat) (name : Variable) (g : Spacing) (value : Expression) : Node :=
  let v := t + Text.byteLength name.chars + Text.byteLength (between g value)
  .other .declarator ⟨t, v + value.length⟩
    [.identifier ⟨t, t + Text.byteLength name.chars⟩ name.spelling, value.node v]

variable {name : Variable} {g : Spacing} {value : Expression} {t : Nat}

theorem range_node :
    (node t name g value).range = ⟨t, t + Text.byteLength (text name g value)⟩ := by
  simp [node, Node.range, text, Expression.length, Nat.add_assoc]

theorem stands_text {cs : List Char} (h : Stands cs t (text name g value)) :
    Stands cs t name.chars ∧ Stands cs
      (t + Text.byteLength name.chars + Text.byteLength (between g value)) value.core :=
  ⟨h.left, h.right.right⟩

theorem textOf_node (names : List String) {cs : List Char}
    (h : Stands cs t (text name g value)) : textOf cs names false (node t name g value) =
      name.chars ++ (between g value ++ textOf cs names false
        (value.node (t + Text.byteLength name.chars + Text.byteLength (between g value)))) := by
  have hself := restate_nil (stands_text h).1
  have hrestate := restate_parts [] [⟨name.chars, name.chars, between g value⟩, ⟨value.core,
    textOf cs names false (value.node
      (t + Text.byteLength name.chars + Text.byteLength (between g value))), []⟩]
    (by simp [name.chars_ne_nil, value.core_ne_nil]) (by simp [Piece.before, text]) h
    (List.Perm.refl _)
  simp only [node, textOf, partsOf, value.range_node, hself]
  simpa [Piece.parts, Piece.after, Text.byteLength, Expression.length, Node.range, text,
    Nat.add_assoc] using hrestate

end Declarator

namespace Item

def closed (i : Item) : List Char :=
  if i.isClosed then i.content.after.text ++ [Sign.semicolon.char] else []

/-- The text of the tree of an item. A declaration of constants goes without its semicolon. -/
def old (i : Item) : List Char :=
  match i.content with
  | .constant _ _ _ _ => i.content.core
  | _ => i.content.core ++ i.closed

def trail (i : Item) : List Char :=
  match i.content with
  | .constant _ _ _ _ => i.content.after.text ++ i.closing
  | _ => i.left.text

theorem closed_append_left (i : Item) :
    i.closed ++ i.left.text = i.content.after.text ++ i.closing := by
  cases hi : i.isClosed <;> simp [closed, left, closing, hi]

theorem byteLength_closed (i : Item) : Text.byteLength i.closed = i.closingLength := by
  cases hi : i.isClosed <;> simp [closed, closingLength, hi, Text.byteLength]

theorem old_append_trail (i : Item) :
    i.old ++ i.trail = i.content.core ++ (i.content.after.text ++ i.closing) := by
  have hclosed := i.closed_append_left
  cases hi : i.content with
  | constant => simp [old, trail, hi]
  | _ =>
    rw [hi] at hclosed
    simp [old, trail, hi, hclosed]

theorem range_node (i : Item) (q : Nat) : (i.node q).range =
    let p := q + Text.byteLength (i.space.text ++ i.content.before.text)
    ⟨p, p + Text.byteLength i.old⟩ := by
  have hclosed := i.byteLength_closed
  cases hi : i.content with
  | imported g name g' g'' source =>
    simp [node, old, hi, Statement.node, Node.range, hclosed, Statement.length, Nat.add_assoc]
  | constant g name g' value =>
    simp [node, old, hi, Statement.node, Node.range, Statement.core, Statement.first,
      Statement.tail, Lexeme.length, Text.byteLength, Expression.length, Nat.add_assoc]
  | plain e =>
    simp [node, old, hi, Statement.node, Node.range, hclosed, Statement.core, Statement.first,
      Statement.tail, Expression.length, Expression.core, Nat.add_assoc]

theorem old_constant (g : Spacing) (isClosed : Bool) (g₁ : Parting) (name : Variable)
    (g₂ : Spacing) (value : Expression) : (Item.mk g (.constant g₁ name g₂ value) isClosed).old =
      constName.chars ++ g₁.1.text ++ Declarator.text name g₂ value := by
  simp [old, Declarator.text, Declarator.between, Statement.core, Statement.first, Statement.tail,
    Lexeme.chars]

theorem node_constant (g : Spacing) (isClosed : Bool) (g₁ : Parting) (name : Variable)
    (g₂ : Spacing) (value : Expression) (q : Nat) :
    (Item.mk g (.constant g₁ name g₂ value) isClosed).node q =
      let p := q + Text.byteLength g.text
      let t := p + Text.byteLength (constName.chars ++ g₁.1.text)
      .other .variables ⟨p, t + Text.byteLength (Declarator.text name g₂ value)⟩
        [Declarator.node t name g₂ value] := by
  simp [node, Statement.node, Statement.before, Declarator.node, Declarator.text,
    Declarator.between, Lexeme.length, Lexeme.chars, Text.byteLength, Expression.length,
    Nat.add_assoc]

theorem old_ne_nil (i : Item) : i.old ≠ [] := by
  cases hi : i.content with
  | constant =>
    have hcore := i.content.core_ne_nil
    simpa [old, hi] using hcore
  | _ =>
    have hcore := i.content.core_ne_nil
    simp [old, hi, hi ▸ hcore]

/-- Nothing stands behind an import of the marker's module up to where the next item starts. -/
theorem before_and_trail_of_isRemoved {i : Item} (h : i.content.isRemoved = true) :
    i.content.before = [] ∧ i.trail = [] := by
  cases hi : i.content with
  | imported g name g' g'' source =>
    cases hc : i.isClosed <;> simp [trail, left, hi, hc, Statement.before, Statement.after]
  | _ => simp [hi, Statement.isRemoved] at h

/-- What is left of an item is spelled out with the text that becomes of its tree. -/
def Restates (text : List Char) (names : List String) (i : Item) : Prop :=
  ∀ q, Stands text (q + Text.byteLength (i.space.text ++ i.content.before.text)) i.old →
    i.content.before.text ++ (textOf text names false (i.node q) ++ i.trail) =
      (i.content.rewritten names).text ++ i.closing

section
variable {text : List Char} {names : List String}

theorem restates_imported (g : Spacing) (isClosed : Bool) (g₁ : Parting) (name : Variable)
    (g₂ : Parting) (g₃ : Spacing) (source : Quoted) :
    (Item.mk g (.imported g₁ name g₂ g₃ source) isClosed).Restates text names := by
  intro q h
  let i : Item := ⟨g, .imported g₁ name g₂ g₃ source, isClosed⟩
  have hself : textOf text names false (i.node q) = i.old := by
    have hrange := i.range_node q
    have hrestate := restate_nil h
    rw [← hrange] at hrestate
    exact hrestate
  have htrail := i.old_append_trail
  rw [hself, htrail]
  simp [i, Statement.rewritten, Statement.text, Statement.before, Statement.after]

theorem restates_plain (g : Spacing) (isClosed : Bool) (e : Expression) :
    (Item.mk g (.plain e) isClosed).Restates text names := by
  intro q h
  let i : Item := ⟨g, .plain e, isClosed⟩
  let p := q + Text.byteLength (g.text ++ e.before.text)
  have hold : i.old = e.core ++ i.closed := rfl
  have hstands : Stands text p (e.core ++ i.closed) := h
  have hself : textOf text names false (i.node q) =
      textOf text names false (e.node p) ++ i.closed := by
    have hrestate := restate_parts [] [⟨e.core, textOf text names false (e.node p), i.closed⟩]
      (by simp [e.core_ne_nil]) (by simp [Piece.before]) hstands (List.Perm.refl _)
    have hrange : (i.node q).range = ⟨p, p + Text.byteLength (e.core ++ i.closed)⟩ :=
      i.range_node q
    have hnode : textOf text names false (i.node q) =
        restate text (i.node q).range [((e.node p).range, textOf text names false (e.node p))] := by
      simp [i, p, node, Statement.node, Statement.before, textOf, partsOf, Node.range,
        Nat.add_assoc]
    rw [hnode, hrange, e.range_node]
    simpa [Piece.parts, Piece.after, Text.byteLength, Expression.length] using hrestate
  have hclosed : i.closed ++ i.trail = e.after.text ++ i.closing := i.closed_append_left
  have hcontent := e.restates text names false p hstands.left
  rw [hself, List.append_assoc, hclosed]
  change e.before.text ++ _ = (e.rewritten names false).text ++ i.closing
  rw [hcontent]
  simp

theorem restates_constant (g : Spacing) (isClosed : Bool) (g₁ : Parting) (name : Variable)
    (g₂ : Spacing) (value : Expression) :
    (Item.mk g (.constant g₁ name g₂ value) isClosed).Restates text names := by
  intro q h
  let i : Item := ⟨g, .constant g₁ name g₂ value, isClosed⟩
  let leading := constName.chars ++ g₁.1.text
  let p := q + Text.byteLength g.text
  let t := p + Text.byteLength leading
  let v := t + Text.byteLength name.chars + Text.byteLength (Declarator.between g₂ value)
  have hstands : Stands text p (leading ++ Declarator.text name g₂ value) := by
    have hat : Stands text (q + Text.byteLength (g.text ++ [])) i.old := h
    rwa [List.append_nil, old_constant] at hat
  have hnode : i.node q = .other .variables ⟨p, t + Text.byteLength (Declarator.text name g₂ value)⟩
      [Declarator.node t name g₂ value] := node_constant g isClosed g₁ name g₂ value q
  have hdeclarator := Declarator.textOf_node names hstands.right
  have hself : textOf text names false (i.node q) = leading ++ (name.chars ++
      (Declarator.between g₂ value ++ textOf text names false (value.node v))) := by
    have hrestate := restate_parts leading [⟨Declarator.text name g₂ value,
      textOf text names false (Declarator.node t name g₂ value), []⟩]
      (by simp [Declarator.text, name.chars_ne_nil]) (by simp [Piece.before]) hstands
      (List.Perm.refl _)
    rw [hnode, textOf, partsOf, partsOf, Declarator.range_node, ← hdeclarator]
    simpa [Piece.parts, Piece.after, t, Nat.add_assoc] using hrestate
  have htrail : i.trail = value.after.text ++ i.closing := rfl
  have hvalue := value.restates text names false v (Declarator.stands_text hstands.right).2
  have hrewritten : (i.content.rewritten names).text = leading ++ (name.chars ++ (g₂.text ++
      Sign.assign.char :: (value.rewritten names false).text)) := by
    simp [i, leading, Statement.rewritten, Statement.text, Statement.before, Statement.after,
      Statement.core, Statement.first, Statement.tail, Lexeme.chars, Expression.text]
  change [] ++ (textOf text names false (i.node q) ++ i.trail) =
    (i.content.rewritten names).text ++ i.closing
  rw [hself, htrail, hrewritten, hvalue]
  simp [Declarator.between]

end

theorem restates (text : List Char) (names : List String) (i : Item) : i.Restates text names := by
  obtain ⟨g, content, isClosed⟩ := i
  cases content with
  | imported g₁ name g₂ g₃ source => exact restates_imported g isClosed g₁ name g₂ g₃ source
  | constant g₁ name g₂ value => exact restates_constant g isClosed g₁ name g₂ value
  | plain e => exact restates_plain g isClosed e

theorem text_eq (i : Item) :
    i.text = i.space.text ++ i.content.before.text ++ (i.old ++ i.trail) := by
  simp [i.old_append_trail, text, Statement.text]

end Item

def leadOfItems (ending : Spacing) : List Item → List Char
  | [] => ending.text
  | i :: _ => i.space.text ++ i.content.before.text

section
variable (text : List Char) (names : List String) (ending : Spacing)

def itemPieces (q : Nat) : List Item → List Piece
  | [] => []
  | i :: items =>
    ⟨i.old, if i.content.isRemoved then [] else textOf text names false (i.node q),
      i.trail ++ leadOfItems ending items⟩ :: itemPieces (q + Text.byteLength i.text) items

theorem lead_append_before_itemPieces : (items : List Item) → (q : Nat) →
    leadOfItems ending items ++ Piece.before (itemPieces text names ending q items) =
      textOfItems items ending
  | [], q => by simp [leadOfItems, itemPieces, Piece.before, textOfItems]
  | i :: items, q => by
    have hrest := lead_append_before_itemPieces items (q + Text.byteLength i.text)
    simp only [Piece.before, textOfItems] at hrest
    rw [textOfItems, List.flatMap_cons, List.append_assoc, i.text_eq, ← hrest, leadOfItems,
      itemPieces, Piece.before, List.flatMap_cons]
    simp

theorem parts_itemPieces : (items : List Item) → (q : Nat) →
    Piece.parts (q + Text.byteLength (leadOfItems ending items))
        (itemPieces text names ending q items) =
      (nodesOfItems q items).map fun n =>
        (n.range, if Marker.Reference.isRemoved n then [] else textOf text names false n)
  | [], _ => rfl
  | i :: items, q => by
    have hrest := parts_itemPieces items (q + Text.byteLength i.text)
    have hremoved : Marker.Reference.isRemoved (i.node q) = i.content.isRemoved :=
      isRemoved_node i.content _ _
    have hnext : q + Text.byteLength (leadOfItems ending (i :: items)) + Text.byteLength i.old +
        Text.byteLength (i.trail ++ leadOfItems ending items) =
          q + Text.byteLength i.text + Text.byteLength (leadOfItems ending items) := by
      simp [leadOfItems, i.text_eq, Nat.add_assoc]
    rw [nodesOfItems, List.map_cons, hremoved, i.range_node, ← hrest, ← hnext]
    rfl

theorem ne_nil_of_mem_itemPieces : (items : List Item) → (q : Nat) →
    ∀ x ∈ itemPieces text names ending q items, x.old ++ x.behind ≠ []
  | [], _ => by simp [itemPieces]
  | i :: items, q => List.forall_mem_cons.mpr
      ⟨by simp [i.old_ne_nil], ne_nil_of_mem_itemPieces items (q + Text.byteLength i.text)⟩

theorem rewrittenItems_text : (items : List Item) → (g : Spacing) → (q : Nat) →
    Stands text q (textOfItems items ending) →
      (rewrittenItems names ending g items).text = g.text ++
        (leadOfItems ending items ++ Piece.after (itemPieces text names ending q items))
  | [], g, q, _ => by
    simp [rewrittenItems, Script.text, textOfItems, leadOfItems, itemPieces, Piece.after]
  | i :: items, g, q, h => by
    rw [textOfItems_cons] at h
    have hitem := h.left
    rw [i.text_eq] at hitem
    have hrest := fun g => rewrittenItems_text items g (q + Text.byteLength i.text) h.right
    have hcontent := i.restates text names q hitem.right.left
    have hpieces : Piece.after (itemPieces text names ending q (i :: items)) =
        (if i.content.isRemoved then [] else textOf text names false (i.node q)) ++ i.trail ++
          (leadOfItems ending items ++
            Piece.after (itemPieces text names ending (q + Text.byteLength i.text) items)) := by
      simp [itemPieces, Piece.after]
    rw [rewrittenItems, leadOfItems, hpieces]
    cases hremoved : i.content.isRemoved with
    | true =>
      obtain ⟨hbefore, htrail⟩ := Item.before_and_trail_of_isRemoved hremoved
      rw [if_pos rfl, if_pos rfl, hrest, hbefore, htrail]
      simp
    | false =>
      have hnil := hrest []
      rw [Script.text, textOfItems] at hnil
      rw [if_neg Bool.false_ne_true, if_neg Bool.false_ne_true, Script.text, textOfItems,
        List.flatMap_cons, List.append_assoc, hnil]
      change ((g ++ i.space).text ++ (i.content.rewritten names).text ++ i.closing) ++ _ = _
      rw [List.append_assoc (g ++ i.space).text, ← hcontent]
      simp

end

theorem textOfModule_module (s : Script) : textOfModule s.text s.module = s.rewritten.text := by
  have hwhole : Stands s.text 0 (textOfItems s.items s.ending) :=
    ⟨[], [], by simp [Script.text], rfl⟩
  have hparts := parts_itemPieces s.text (Marker.names s.module) s.ending s.items 0
  have hrestate := restate_parts (leadOfItems s.ending s.items)
    (itemPieces s.text (Marker.names s.module) s.ending 0 s.items)
    (ne_nil_of_mem_itemPieces s.text (Marker.names s.module) s.ending s.items 0)
    (lead_append_before_itemPieces s.text (Marker.names s.module) s.ending s.items 0) hwhole
    (List.Perm.refl _)
  rw [hparts, Nat.zero_add] at hrestate
  rw [Script.rewritten, rewrittenItems_text s.text (Marker.names s.module) s.ending s.items [] 0
    hwhole]
  exact hrestate

end Outdent.Written
