import Outdent.Proofs.Written.Expression
/-! # Written scripts

Imports of a default binding, constants, and expressions that are statements by themselves, as they
are spelled out. A statement ends at a semicolon, or where the line does if the next one starts with
a name or a quoted text. -/
namespace Outdent.Written

open Syntax

abbrev Parting := { g : Spacing // g ≠ [] }

def importName : Name := ⟨"import".toList, by decide⟩

def fromName : Name := ⟨"from".toList, by decide⟩

def constName : Name := ⟨"const".toList, by decide⟩

def Quoted.spelling (q : Quoted) : String := String.ofList q.value

inductive Statement where
  | imported (g : Parting) (name : Variable) (g' : Parting) (g'' : Spacing) (source : Quoted)
  | constant (g : Parting) (name : Variable) (g' : Spacing) (value : Expression)
  | plain (e : Expression)

namespace Statement

def before : Statement → Spacing
  | imported _ _ _ _ _ | constant _ _ _ _ => []
  | plain e => e.before

def after : Statement → Spacing
  | imported _ _ _ _ _ => []
  | constant _ _ _ value => value.after
  | plain e => e.after

def first : Statement → Lexeme
  | imported _ _ _ _ _ => .name importName
  | constant _ _ _ _ => .name constName
  | plain e => e.first

def tail : Statement → List Char
  | imported g name g' g'' source =>
    g.1.text ++ (name.chars ++ (g'.1.text ++ (fromName.chars ++
      (g''.text ++ (Lexeme.quoted source).chars))))
  | constant g name g' value =>
    g.1.text ++ (name.chars ++ (g'.text ++ Sign.assign.char :: (value.before.text ++ value.core)))
  | plain e => e.tail

def core (c : Statement) : List Char := c.first.chars ++ c.tail

def text (c : Statement) : List Char := c.before.text ++ c.core ++ c.after.text

def length (c : Statement) : Nat := Text.byteLength c.core

/-- The tree of a statement whose first lexeme stands at an offset, with so many bytes up to the end
of its semicolon. -/
def node (p closing : Nat) : Statement → Node
  | imported g name g' g'' source => .importing
      ⟨⟨p, p + (imported g name g' g'' source).length + closing⟩, source.spelling,
        [⟨.byDefault, name.spelling⟩], []⟩
  | constant g name g' value =>
    let q := p + (Lexeme.name constName).length + Text.byteLength g.1.text
    let r := q + Text.byteLength name.chars
    let v := r + Text.byteLength g'.text + 1 + Text.byteLength value.before.text
    .other .variables ⟨p, v + value.length⟩ [.other .declarator ⟨q, v + value.length⟩
      [.identifier ⟨q, r⟩ name.spelling, value.node v]]
  | plain e => .other .statement ⟨p, p + e.length + closing⟩ [e.node p]

def IsReadable : Statement → Prop
  | imported _ _ _ _ _ => True
  | constant _ _ _ value => value.IsReadable
  | plain e => e.IsReadable

instance : (c : Statement) → Decidable c.IsReadable
  | imported _ _ _ _ _ => isTrue trivial
  | constant _ _ _ value => value.decidableIsReadable
  | plain e => e.decidableIsReadable

/-- Whether nothing on the line above goes on with the first lexeme. -/
def startsLine (c : Statement) : Bool :=
  match c.first with
  | .sign _ => false
  | _ => true

end Statement

/-- A statement with the spacing in front of it, and whether a semicolon closes it. -/
structure Item where
  space : Spacing
  content : Statement
  isClosed : Bool

namespace Item

def closing (i : Item) : List Char := if i.isClosed then [Sign.semicolon.char] else []

def text (i : Item) : List Char := i.space.text ++ i.content.text ++ i.closing

def closingLength (i : Item) : Nat :=
  if i.isClosed then Text.byteLength i.content.after.text + 1 else 0

def left (i : Item) : Spacing := if i.isClosed then [] else i.content.after

def node (q : Nat) (i : Item) : Node :=
  i.content.node (q + Text.byteLength i.space.text + Text.byteLength i.content.before.text)
    i.closingLength

end Item

structure Script where
  items : List Item
  ending : Spacing

def textOfItems (items : List Item) (ending : Spacing) : List Char :=
  items.flatMap Item.text ++ ending.text

def nodesOfItems (q : Nat) : List Item → List Node
  | [] => []
  | i :: items => i.node q :: nodesOfItems (q + Text.byteLength i.text) items

/-- Whether the text ends behind spacing, or a line does and the next item starts a new one. -/
def endsLine (g : Spacing) : List Item → Bool
  | [] => true
  | i :: _ => (g ++ i.space ++ i.content.before).breaksLine && i.content.startsLine

def IsParted : List Item → Prop
  | [] => True
  | i :: items => (i.isClosed || endsLine i.content.after items) = true ∧ IsParted items

instance decidableIsParted : (items : List Item) → Decidable (IsParted items)
  | [] => isTrue trivial
  | _ :: items =>
    have := decidableIsParted items
    inferInstanceAs (Decidable (_ ∧ _))

theorem Statement.core_ne_nil (c : Statement) : c.core ≠ [] := by
  obtain ⟨d, cs, hchars, -⟩ := exists_first c.first
  simp [core, hchars]

theorem textOfItems_cons (i : Item) (items : List Item) (ending : Spacing) :
    textOfItems (i :: items) ending = i.text ++ textOfItems items ending := by
  simp [textOfItems]

namespace Script

def text (s : Script) : List Char := textOfItems s.items s.ending

def module (s : Script) : Module := ⟨nodesOfItems 0 s.items⟩

structure IsReadable (s : Script) : Prop where
  contents : ∀ i ∈ s.items, i.content.IsReadable
  parted : IsParted s.items

instance (s : Script) : Decidable s.IsReadable :=
  decidable_of_iff ((∀ i ∈ s.items, i.content.IsReadable) ∧ IsParted s.items)
    ⟨fun h => ⟨h.1, h.2⟩, fun h => ⟨h.contents, h.parted⟩⟩

end Script

end Outdent.Written
