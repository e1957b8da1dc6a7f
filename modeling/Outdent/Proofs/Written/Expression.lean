import Outdent.Proofs.Syntax.Segment
import Outdent.Proofs.Written.Lexeme
import Outdent.Syntax.Grammar.Basic
import Outdent.Syntax.Tree
/-! # Written expressions

Names, quoted texts and templates, with templates, members and calls behind them, as they are
spelled out: which text they have, and which tree they stand for. Templates hold expressions in
turn. -/
namespace Outdent.Written

open Syntax

/-- A name that means nothing to the grammar. -/
structure Variable extends Name where
  isFree : (toName.word == .other && !Grammar.isBarredTarget toName.spelling) = true

mutual

inductive Expression where
  | named (name : Variable)
  | quoted (text : Quoted)
  | template (body : Body)
  | tagged (tag : Expression) (body : Body)
  | member (object : Expression) (space : Spacing) (name : Name)
  | call (callee : Expression) (given : Arguments)
  | spaced (before : Spacing) (inside : Expression) (after : Spacing)

inductive Body where
  | last (raw : List Char)
  | hole (raw : List Char) (inside : Expression) (rest : Body)

inductive Arguments where
  | closed (space : Spacing)
  | last (inside : Expression)
  | more (inside : Expression) (rest : Arguments)

end

namespace Expression

def before : Expression → Spacing
  | named _ | quoted _ | template _ => []
  | tagged tag _ => tag.before
  | member object _ _ => object.before
  | call callee _ => callee.before
  | spaced g inside _ => g ++ inside.before

def after : Expression → Spacing
  | spaced _ inside g => inside.after ++ g
  | _ => []

def first : Expression → Lexeme
  | named name => .name name.toName
  | quoted text => .quoted text
  | template _ => .sign .backquote
  | tagged tag _ => tag.first
  | member object _ _ => object.first
  | call callee _ => callee.first
  | spaced _ inside _ => inside.first

end Expression

mutual

/-- The text behind the first lexeme, without the spacing at the end. -/
def Expression.tail : Expression → List Char
  | .named _ | .quoted _ => []
  | .template body => body.text
  | .tagged tag body => tag.tail ++ tag.after.text ++ Sign.backquote.char :: body.text
  | .member object g name =>
    object.tail ++ object.after.text ++ Sign.dot.char :: (g.text ++ name.chars)
  | .call callee given => callee.tail ++ callee.after.text ++ Sign.openParen.char :: given.text
  | .spaced _ inside _ => inside.tail

def Body.text : Body → List Char
  | .last raw => raw ++ TemplateEnd.closed.delimiter
  | .hole raw inside rest =>
    raw ++ TemplateEnd.hole.delimiter ++ (inside.before.text ++ (inside.first.chars ++ inside.tail)
      ++ inside.after.text) ++ Sign.closeBrace.char :: rest.text

def Arguments.text : Arguments → List Char
  | .closed g => g.text ++ [Sign.closeParen.char]
  | .last inside => inside.before.text ++ (inside.first.chars ++ inside.tail) ++
      inside.after.text ++ [Sign.closeParen.char]
  | .more inside rest => inside.before.text ++ (inside.first.chars ++ inside.tail) ++
      inside.after.text ++ Sign.comma.char :: rest.text

end

namespace Expression

def core (e : Expression) : List Char := e.first.chars ++ e.tail

def text (e : Expression) : List Char := e.before.text ++ e.core ++ e.after.text

def length (e : Expression) : Nat := Text.byteLength e.core

theorem core_ne_nil (e : Expression) : e.core ≠ [] := by
  obtain ⟨d, cs, hchars, -⟩ := exists_first e.first
  simp [core, hchars]

theorem length_core_le (e : Expression) : e.core.length ≤ e.text.length := by
  simp only [text, List.length_append]
  omega

theorem core_append (e : Expression) (behind : List Char) :
    e.first.chars ++ (e.tail ++ e.after.text ++ behind) = e.core ++ e.after.text ++ behind := by
  simp only [core, List.append_assoc]

theorem core_template (body : Body) :
    (template body).core = Sign.backquote.char :: body.text := rfl

theorem core_tagged (tag : Expression) (body : Body) :
    (tagged tag body).core = tag.core ++ tag.after.text ++ Sign.backquote.char :: body.text :=
  core_append tag _

theorem core_member (object : Expression) (g : Spacing) (name : Name) :
    (member object g name).core =
      object.core ++ object.after.text ++ Sign.dot.char :: (g.text ++ name.chars) :=
  core_append object _

theorem core_call (callee : Expression) (given : Arguments) : (call callee given).core =
    callee.core ++ callee.after.text ++ Sign.openParen.char :: given.text :=
  core_append callee _

/-- What stands behind an operand stands behind the text of the operand. -/
theorem text_of_core {e operand : Expression} {behind : List Char}
    (hbefore : e.before = operand.before) (hafter : e.after = [])
    (hcore : e.core = operand.core ++ operand.after.text ++ behind) :
    e.text = operand.text ++ behind := by
  rw [text, hbefore, hafter, hcore]
  simp only [text, Spacing.text_nil, List.append_nil, List.append_assoc]

theorem text_template (body : Body) :
    (template body).text = Sign.backquote.char :: body.text :=
  List.append_nil (Sign.backquote.char :: body.text)

theorem text_tagged (tag : Expression) (body : Body) :
    (tagged tag body).text = tag.text ++ Sign.backquote.char :: body.text :=
  text_of_core rfl rfl (core_tagged tag body)

theorem text_member (object : Expression) (g : Spacing) (name : Name) :
    (member object g name).text = object.text ++ Sign.dot.char :: (g.text ++ name.chars) :=
  text_of_core rfl rfl (core_member object g name)

theorem text_call (callee : Expression) (given : Arguments) :
    (call callee given).text = callee.text ++ Sign.openParen.char :: given.text :=
  text_of_core rfl rfl (core_call callee given)

theorem text_spaced (g g' : Spacing) (inside : Expression) :
    (spaced g inside g').text = g.text ++ inside.text ++ g'.text := by
  change (g ++ inside.before).text ++ inside.core ++ (inside.after ++ g').text = _
  simp only [text, Spacing.text_append, List.append_assoc]

theorem byteLength_text (e : Expression) : Text.byteLength e.text =
    Text.byteLength e.before.text + e.length + Text.byteLength e.after.text := by
  simp [text, length, Nat.add_assoc]

theorem length_named (v : Variable) : (named v).length = Text.byteLength v.chars :=
  congrArg Text.byteLength (List.append_nil v.chars)

theorem length_quoted (text : Quoted) : (quoted text).length = (Lexeme.quoted text).length :=
  congrArg Text.byteLength (List.append_nil (Lexeme.quoted text).chars)

theorem length_template (body : Body) :
    (template body).length = 1 + Text.byteLength body.text := by
  simp [length, core_template, Text.byteLength]

theorem length_tagged (tag : Expression) (body : Body) : (tagged tag body).length =
    tag.length + Text.byteLength tag.after.text + 1 + Text.byteLength body.text := by
  simp [length, core_tagged, Text.byteLength, Nat.add_assoc]

theorem length_member (object : Expression) (g : Spacing) (name : Name) :
    (member object g name).length = object.length + Text.byteLength object.after.text + 1 +
      Text.byteLength g.text + Text.byteLength name.chars := by
  simp [length, core_member, Text.byteLength, Nat.add_assoc]

theorem length_call (callee : Expression) (given : Arguments) : (call callee given).length =
    callee.length + Text.byteLength callee.after.text + 1 + Text.byteLength given.text := by
  simp [length, core_call, Text.byteLength, Nat.add_assoc]

end Expression

theorem Body.text_hole (raw : List Char) (inside : Expression) (rest : Body) :
    (hole raw inside rest).text =
      raw ++ TemplateEnd.hole.delimiter ++ inside.text ++ Sign.closeBrace.char :: rest.text :=
  rfl

theorem Arguments.text_last (inside : Expression) :
    (last inside).text = inside.text ++ [Sign.closeParen.char] := rfl

theorem Arguments.text_more (inside : Expression) (rest : Arguments) :
    (more inside rest).text = inside.text ++ Sign.comma.char :: rest.text := rfl

mutual

def Expression.node (p : Nat) : Expression → Node
  | .named name => .identifier ⟨p, p + Text.byteLength name.chars⟩ name.spelling
  | .quoted text => .other .literal ⟨p, p + (Lexeme.quoted text).length⟩ []
  | .template body =>
    .template ⟨⟨p, p + 1 + Text.byteLength body.text⟩, body.segments (p + 1), body.holes (p + 1)⟩
  | .tagged tag body =>
    let q := p + tag.length + Text.byteLength tag.after.text
    .tagged ⟨p, q + 1 + Text.byteLength body.text⟩ (tag.node p) none
      ⟨⟨q, q + 1 + Text.byteLength body.text⟩, body.segments (q + 1), body.holes (q + 1)⟩
  | .member object g name =>
    let q := p + object.length + Text.byteLength object.after.text + 1 + Text.byteLength g.text
    let r : Span := ⟨q, q + Text.byteLength name.chars⟩
    .other .member ⟨p, r.stop⟩ [object.node p, .other .name r []]
  | .call callee given =>
    let q := p + callee.length + Text.byteLength callee.after.text + 1
    .other .call ⟨p, q + Text.byteLength given.text⟩ (callee.node p :: given.nodes q)
  | .spaced _ inside _ => inside.node p

def Body.segments (q : Nat) : Body → List Segment
  | .last raw => [⟨⟨q, q + Text.byteLength raw⟩, raw⟩]
  | .hole raw inside rest => ⟨⟨q, q + Text.byteLength raw⟩, raw⟩ ::
      rest.segments (q + Text.byteLength raw + 2 + Text.byteLength inside.text + 1)

def Body.holes (q : Nat) : Body → List Node
  | .last _ => []
  | .hole raw inside rest =>
    inside.node (q + Text.byteLength raw + 2 + Text.byteLength inside.before.text) ::
      rest.holes (q + Text.byteLength raw + 2 + Text.byteLength inside.text + 1)

def Arguments.nodes (q : Nat) : Arguments → List Node
  | .closed _ => []
  | .last inside => [inside.node (q + Text.byteLength inside.before.text)]
  | .more inside rest => inside.node (q + Text.byteLength inside.before.text) ::
      rest.nodes (q + Text.byteLength inside.text + 1)

end

def Body.template (q : Nat) (b : Body) : Template Node :=
  ⟨⟨q, q + 1 + Text.byteLength b.text⟩, b.segments (q + 1), b.holes (q + 1)⟩

mutual

def Expression.IsReadable : Expression → Prop
  | .named _ | .quoted _ => True
  | .template body => body.IsReadable false
  | .tagged tag body => tag.IsReadable ∧ body.IsReadable true
  | .member object _ _ => object.IsReadable
  | .call callee given => callee.IsReadable ∧ given.IsReadable
  | .spaced _ inside _ => inside.IsReadable

def Body.IsReadable (isTagged : Bool) : Body → Prop
  | .last raw => IsSegment isTagged raw
  | .hole raw inside rest =>
    IsSegment isTagged raw ∧ inside.IsReadable ∧ rest.IsReadable isTagged

def Arguments.IsReadable : Arguments → Prop
  | .closed _ => True
  | .last inside => inside.IsReadable
  | .more inside rest => inside.IsReadable ∧ rest.IsReadable

end

mutual

instance Expression.decidableIsReadable : (e : Expression) → Decidable e.IsReadable
  | .named _ => isTrue trivial
  | .quoted _ => isTrue trivial
  | .template body => body.decidableIsReadable false
  | .tagged tag body =>
    have := tag.decidableIsReadable
    have := body.decidableIsReadable true
    inferInstanceAs (Decidable (_ ∧ _))
  | .member object _ _ => object.decidableIsReadable
  | .call callee given =>
    have := callee.decidableIsReadable
    have := given.decidableIsReadable
    inferInstanceAs (Decidable (_ ∧ _))
  | .spaced _ inside _ => inside.decidableIsReadable

instance Body.decidableIsReadable (isTagged : Bool) : (b : Body) → Decidable (b.IsReadable isTagged)
  | .last raw => inferInstanceAs (Decidable (IsSegment isTagged raw))
  | .hole _ inside rest =>
    have := inside.decidableIsReadable
    have := rest.decidableIsReadable isTagged
    inferInstanceAs (Decidable (_ ∧ _ ∧ _))

instance Arguments.decidableIsReadable : (given : Arguments) → Decidable given.IsReadable
  | .closed _ => isTrue trivial
  | .last inside => inside.decidableIsReadable
  | .more inside rest =>
    have := inside.decidableIsReadable
    have := rest.decidableIsReadable
    inferInstanceAs (Decidable (_ ∧ _))

end

end Outdent.Written
