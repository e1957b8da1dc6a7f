import Outdent.Proofs.Marker.Agreement
import Outdent.Proofs.Marker.Piece
import Outdent.Proofs.Written.Rewriting
/-! # The text of what is left

The text that a rewritten tree stands for is the one that the rewritten script is spelled out with:
both put the stretches of the children of a node anew, in the same order. -/
namespace Outdent.Written

open Syntax Marker.Reference

section
variable {text : List Char} {p : Nat}

theorem Expression.stands_tagged {tag : Expression} {body : Body}
    (h : Stands text p (tagged tag body).core) : Stands text p tag.core ∧
      Stands text (p + tag.length + Text.byteLength tag.after.text)
        (Sign.backquote.char :: body.text) := by
  rw [core_tagged] at h
  have hright := h.right
  rw [Text.byteLength_append, ← Nat.add_assoc] at hright
  exact ⟨h.left.left, hright⟩

theorem Expression.stands_member {object : Expression} {g : Spacing} {name : Name}
    (h : Stands text p (member object g name).core) : Stands text p object.core ∧
      Stands text (p + object.length + Text.byteLength object.after.text + 1 +
        Text.byteLength g.text) name.chars := by
  rw [core_member] at h
  have hright := h.right.tail.right
  rw [Text.byteLength_append, ← Nat.add_assoc, Sign.utf8Size_char] at hright
  exact ⟨h.left.left, hright⟩

theorem Expression.stands_call {callee : Expression} {given : Arguments}
    (h : Stands text p (call callee given).core) : Stands text p callee.core ∧
      Stands text (p + callee.length + Text.byteLength callee.after.text + 1) given.text := by
  rw [core_call] at h
  have hright := h.right.tail
  rw [Text.byteLength_append, ← Nat.add_assoc, Sign.utf8Size_char] at hright
  exact ⟨h.left.left, hright⟩

theorem Expression.stands_text {e : Expression} {cs : List Char}
    (h : Stands text p (e.text ++ cs)) :
    Stands text (p + Text.byteLength e.before.text) e.core ∧
      Stands text (p + Text.byteLength e.text) cs := by
  have hright := h.right
  rw [Expression.text, List.append_assoc, List.append_assoc] at h
  exact ⟨h.right.left, hright⟩

theorem Body.stands_hole {raw : List Char} {inside : Expression} {rest : Body}
    (h : Stands text p (hole raw inside rest).text) : Stands text p raw ∧
      Stands text (p + Text.byteLength raw + 2 + Text.byteLength inside.before.text) inside.core ∧
      Stands text (p + Text.byteLength raw + 2 + Text.byteLength inside.text + 1) rest.text := by
  rw [text_hole, List.append_assoc, List.append_assoc] at h
  have hright : Stands text (p + Text.byteLength raw + 2) _ := h.right.right
  obtain ⟨hinside, hrest⟩ := Expression.stands_text hright
  exact ⟨h.left, hinside, hrest.tail⟩

theorem Arguments.stands_last {inside : Expression} (h : Stands text p (last inside).text) :
    Stands text (p + Text.byteLength inside.before.text) inside.core := by
  rw [text_last] at h
  exact (Expression.stands_text h).1

theorem Arguments.stands_more {inside : Expression} {rest : Arguments}
    (h : Stands text p (more inside rest).text) :
    Stands text (p + Text.byteLength inside.before.text) inside.core ∧
      Stands text (p + Text.byteLength inside.text + 1) rest.text := by
  rw [text_more] at h
  obtain ⟨hinside, hrest⟩ := Expression.stands_text h
  exact ⟨hinside, hrest.tail⟩

end

def Body.lead : Body → List Char
  | .last raw => raw ++ TemplateEnd.closed.delimiter
  | .hole raw inside _ => raw ++ TemplateEnd.hole.delimiter ++ inside.before.text

def Arguments.lead : Arguments → List Char
  | .closed g => g.text ++ [Sign.closeParen.char]
  | .last inside => inside.before.text
  | .more inside _ => inside.before.text

section
variable (text : List Char) (names : List String)

def Body.holePieces (q : Nat) : Body → List Piece
  | .last _ => []
  | .hole raw inside rest =>
    ⟨inside.core, textOf text names false
        (inside.node (q + Text.byteLength raw + 2 + Text.byteLength inside.before.text)),
      inside.after.text ++ Sign.closeBrace.char :: rest.lead⟩ ::
      rest.holePieces (q + Text.byteLength raw + 2 + Text.byteLength inside.text + 1)

/-- The segments of a template without their indentation, and its holes put anew. -/
def Body.markedPieces (q : Nat) : Body → List Piece
  | .last raw => [⟨raw, Segment.normalize raw, TemplateEnd.closed.delimiter⟩]
  | .hole raw inside rest =>
    ⟨raw, Segment.normalize raw, TemplateEnd.hole.delimiter ++ inside.before.text⟩ ::
      ⟨inside.core, textOf text names false
          (inside.node (q + Text.byteLength raw + 2 + Text.byteLength inside.before.text)),
        inside.after.text ++ [Sign.closeBrace.char]⟩ ::
      rest.markedPieces (q + Text.byteLength raw + 2 + Text.byteLength inside.text + 1)

def Arguments.pieces (q : Nat) : Arguments → List Piece
  | .closed _ => []
  | .last inside =>
    [⟨inside.core, textOf text names false (inside.node (q + Text.byteLength inside.before.text)),
      inside.after.text ++ [Sign.closeParen.char]⟩]
  | .more inside rest =>
    ⟨inside.core, textOf text names false (inside.node (q + Text.byteLength inside.before.text)),
      inside.after.text ++ Sign.comma.char :: rest.lead⟩ ::
      rest.pieces (q + Text.byteLength inside.text + 1)

end

theorem Expression.range_node : (e : Expression) → (p : Nat) →
    (e.node p).range = ⟨p, p + e.length⟩
  | .named v, p => by rw [node, length_named]; rfl
  | .quoted _, p => by rw [node, length_quoted]; rfl
  | .template _, p => by rw [node, length_template, ← Nat.add_assoc]; rfl
  | .tagged tag body, p => by rw [node_tagged]; rfl
  | .member object g name, p => by
    rw [length_member]
    simp [node, Node.range, Nat.add_assoc]
  | .call callee given, p => by
    rw [length_call]
    simp [node, Node.range, Nat.add_assoc]
  | .spaced _ inside _, p => inside.range_node p

section
variable (text : List Char) (names : List String)

namespace Body

theorem lead_append_before_holePieces : (b : Body) → (q : Nat) →
    b.lead ++ Piece.before (b.holePieces text names q) = b.text
  | .last raw, q => by simp [lead, holePieces, Piece.before, Body.text]
  | .hole raw inside rest, q => by
    have hrest := rest.lead_append_before_holePieces
      (q + Text.byteLength raw + 2 + Text.byteLength inside.text + 1)
    simp only [Piece.before] at hrest
    simp [text_hole, lead, holePieces, Piece.before, ← hrest, Expression.text]

theorem before_markedPieces : (b : Body) → (q : Nat) →
    Piece.before (b.markedPieces text names q) = b.text
  | .last raw, q => by simp [markedPieces, Piece.before, Body.text]
  | .hole raw inside rest, q => by
    have hrest := rest.before_markedPieces
      (q + Text.byteLength raw + 2 + Text.byteLength inside.text + 1)
    simp only [Piece.before] at hrest
    simp [text_hole, markedPieces, Piece.before, ← hrest, Expression.text]

theorem parts_holePieces : (b : Body) → (q : Nat) →
    Piece.parts (q + Text.byteLength b.lead) (b.holePieces text names q) =
      partsOf text names (b.holes q)
  | .last raw, q => rfl
  | .hole raw inside rest, q => by
    have hrest := rest.parts_holePieces
      (q + Text.byteLength raw + 2 + Text.byteLength inside.text + 1)
    have hdelimiter : Text.byteLength TemplateEnd.hole.delimiter = 2 := rfl
    have hstart : q + Text.byteLength (hole raw inside rest).lead =
        q + Text.byteLength raw + 2 + Text.byteLength inside.before.text := by
      simp [lead, hdelimiter, Nat.add_assoc]
    have hnext : q + Text.byteLength raw + 2 + Text.byteLength inside.before.text + inside.length +
        Text.byteLength (inside.after.text ++ Sign.closeBrace.char :: rest.lead) =
          q + Text.byteLength raw + 2 + Text.byteLength inside.text + 1 +
            Text.byteLength rest.lead := by
      simp [Expression.byteLength_text, Text.byteLength, Nat.add_assoc]
    rw [hstart, holes, partsOf, Expression.range_node, ← hrest, ← hnext]
    rfl

theorem perm_markedPieces : (b : Body) → (q : Nat) →
    ((b.segments q).map (fun s => (s.range, Segment.normalize s.raw)) ++
        partsOf text names (b.holes q)).Perm
      (Piece.parts q (b.markedPieces text names q))
  | .last raw, q => List.Perm.refl _
  | .hole raw inside rest, q => by
    have hrest := rest.perm_markedPieces
      (q + Text.byteLength raw + 2 + Text.byteLength inside.text + 1)
    have hdelimiter : Text.byteLength TemplateEnd.hole.delimiter = 2 := rfl
    have hstart : q + Text.byteLength raw +
        Text.byteLength (TemplateEnd.hole.delimiter ++ inside.before.text) =
        q + Text.byteLength raw + 2 + Text.byteLength inside.before.text := by
      simp [hdelimiter, Nat.add_assoc]
    have hnext : q + Text.byteLength raw + 2 + Text.byteLength inside.before.text + inside.length +
        Text.byteLength (inside.after.text ++ [Sign.closeBrace.char]) =
          q + Text.byteLength raw + 2 + Text.byteLength inside.text + 1 := by
      simp [Expression.byteLength_text, Text.byteLength, Nat.add_assoc]
    rw [markedPieces, Piece.parts, Piece.parts, hstart]
    refine List.Perm.cons _ (List.perm_middle.trans ?_)
    rw [Expression.range_node]
    refine List.Perm.cons _ ?_
    change List.Perm _ (Piece.parts (_ + inside.length + _) _)
    rw [hnext]
    exact hrest

theorem ne_nil_of_mem_holePieces : (b : Body) → (q : Nat) →
    ∀ x ∈ b.holePieces text names q, x.old ++ x.behind ≠ []
  | .last _, _ => by simp [holePieces]
  | .hole raw inside rest, q => by
    have hrest := rest.ne_nil_of_mem_holePieces
      (q + Text.byteLength raw + 2 + Text.byteLength inside.text + 1)
    exact List.forall_mem_cons.mpr ⟨by simp, hrest⟩

theorem ne_nil_of_mem_markedPieces : (b : Body) → (q : Nat) →
    ∀ x ∈ b.markedPieces text names q, x.old ++ x.behind ≠ []
  | .last raw, _ => List.forall_mem_cons.mpr ⟨by simp [TemplateEnd.delimiter], by simp⟩
  | .hole raw inside rest, q => by
    have hrest := rest.ne_nil_of_mem_markedPieces
      (q + Text.byteLength raw + 2 + Text.byteLength inside.text + 1)
    exact List.forall_mem_cons.mpr ⟨by simp [TemplateEnd.delimiter],
      List.forall_mem_cons.mpr ⟨by simp, hrest⟩⟩

end Body

namespace Arguments

theorem lead_append_before_pieces : (given : Arguments) → (q : Nat) →
    given.lead ++ Piece.before (given.pieces text names q) = given.text
  | .closed g, q => by simp [lead, pieces, Piece.before, Arguments.text]
  | .last inside, q => by simp [text_last, lead, pieces, Piece.before, Expression.text]
  | .more inside rest, q => by
    have hrest := rest.lead_append_before_pieces (q + Text.byteLength inside.text + 1)
    simp only [Piece.before] at hrest
    simp [text_more, lead, pieces, Piece.before, ← hrest, Expression.text]

theorem parts_pieces : (given : Arguments) → (q : Nat) →
    Piece.parts (q + Text.byteLength given.lead) (given.pieces text names q) =
      partsOf text names (given.nodes q)
  | .closed _, _ => rfl
  | .last inside, q => by
    rw [nodes, partsOf, Expression.range_node]
    rfl
  | .more inside rest, q => by
    have hrest := rest.parts_pieces (q + Text.byteLength inside.text + 1)
    have hnext : q + Text.byteLength inside.before.text + inside.length +
        Text.byteLength (inside.after.text ++ Sign.comma.char :: rest.lead) =
          q + Text.byteLength inside.text + 1 + Text.byteLength rest.lead := by
      simp [Expression.byteLength_text, Text.byteLength, Nat.add_assoc]
    rw [nodes, partsOf, Expression.range_node, ← hrest, ← hnext]
    rfl

theorem ne_nil_of_mem_pieces : (given : Arguments) → (q : Nat) →
    ∀ x ∈ given.pieces text names q, x.old ++ x.behind ≠ []
  | .closed _, _ => by simp [pieces]
  | .last inside, _ => List.forall_mem_cons.mpr ⟨by simp, by simp⟩
  | .more inside rest, q => by
    have hrest := rest.ne_nil_of_mem_pieces (q + Text.byteLength inside.text + 1)
    exact List.forall_mem_cons.mpr ⟨by simp, hrest⟩

end Arguments

end

section
variable {text : List Char} {names : List String}

theorem restate_nil {cs : List Char} {p : Nat} (h : Stands text p cs) :
    restate text ⟨p, p + Text.byteLength cs⟩ [] = cs := by
  simpa [Piece.after] using restate_parts cs [] (by simp) (by simp [Piece.before]) h
    (List.Perm.refl [])

theorem restate_tagged {tag : Expression} {body : Body} {p : Nat}
    (h : Stands text p (Expression.tagged tag body).core) (t b : List Char) :
    restate text ⟨p, p + (Expression.tagged tag body).length⟩
        [((tag.node p).range, t),
          ((body.template (p + tag.length + Text.byteLength tag.after.text)).range, b)] =
      t ++ tag.after.text ++ b := by
  have hrestate := restate_parts [] [⟨tag.core, t, tag.after.text⟩,
    ⟨Sign.backquote.char :: body.text, b, []⟩] (by simp [tag.core_ne_nil])
    (by simp [Piece.before, Expression.core_tagged]) h (List.Perm.refl _)
  simpa [Piece.parts, Piece.after, Expression.range_node, Body.template, Text.byteLength,
    Nat.add_assoc, Expression.length] using hrestate

theorem Body.plainText_template (names : List String) {b : Body} {q : Nat}
    (h : Stands text q (Sign.backquote.char :: b.text)) : plainText text names (b.template q) =
      Sign.backquote.char :: (b.lead ++ Piece.after (b.holePieces text names (q + 1))) := by
  have hrange : (b.template q).range =
      ⟨q, q + Text.byteLength (Sign.backquote.char :: b.text)⟩ := by
    simp [template, Text.byteLength, Nat.add_assoc]
  have hparts := b.parts_holePieces text names (q + 1)
  rw [plainText, hrange, ← List.cons_append]
  refine restate_parts _ _ (b.ne_nil_of_mem_holePieces text names (q + 1)) ?_ h ?_
  · rw [List.cons_append, b.lead_append_before_holePieces]
  · rw [Text.byteLength, Sign.utf8Size_char, ← Nat.add_assoc, hparts]
    rfl

theorem Body.normalisedText_template (names : List String) {b : Body} {q : Nat}
    (h : Stands text q (Sign.backquote.char :: b.text)) :
    normalisedText text names (b.template q) =
      Sign.backquote.char :: Piece.after (b.markedPieces text names (q + 1)) := by
  have hrange : (b.template q).range =
      ⟨q, q + Text.byteLength (Sign.backquote.char :: b.text)⟩ := by
    simp [template, Text.byteLength, Nat.add_assoc]
  rw [normalisedText, hrange]
  exact restate_parts [Sign.backquote.char] _ (b.ne_nil_of_mem_markedPieces text names (q + 1))
    (by rw [List.singleton_append, b.before_markedPieces]) h
    (b.perm_markedPieces text names (q + 1))

/-- What is left of an expression is spelled out with the text that becomes of its tree. -/
def Expression.Restates (text : List Char) (names : List String) (wrapped : Bool)
    (e : Expression) : Prop :=
  ∀ p, Stands text p e.core → (e.rewritten names wrapped).text =
    e.before.text ++ textOf text names wrapped (e.node p) ++ e.after.text

def Body.Restates (text : List Char) (names : List String) (b : Body) : Prop :=
  ∀ q, Stands text q b.text →
    b.lead ++ Piece.after (b.holePieces text names q) = (b.rewritten names false).text ∧
      Piece.after (b.markedPieces text names q) = (b.rewritten names true).text

def Arguments.Restates (text : List Char) (names : List String) (given : Arguments) : Prop :=
  ∀ q, Stands text q given.text →
    given.lead ++ Piece.after (given.pieces text names q) = (given.rewritten names).text

namespace Expression

theorem restates_named (wrapped : Bool) (v : Variable) : (named v).Restates text names wrapped := by
  intro p h
  have hcore : (named v).core = v.chars := by simp [core, first, tail, Lexeme.chars]
  rw [hcore] at h
  have hself : textOf text names wrapped ((named v).node p) = v.chars := restate_nil h
  simp [rewritten, Expression.text, before, after, hcore, hself]

theorem restates_quoted (wrapped : Bool) (q : Quoted) :
    (quoted q).Restates text names wrapped := by
  intro p h
  have hcore : (quoted q).core = (Lexeme.quoted q).chars := by simp [core, first, tail]
  rw [hcore] at h
  have hself : textOf text names wrapped ((quoted q).node p) = (Lexeme.quoted q).chars :=
    restate_nil h
  simp [rewritten, Expression.text, before, after, hcore, hself]

theorem restates_template {body : Body} (hbody : body.Restates text names) (wrapped : Bool) :
    (template body).Restates text names wrapped := by
  intro p h
  rw [core_template] at h
  have hinside : Stands text (p + 1) body.text := h.tail
  have hself : textOf text names wrapped ((template body).node p) =
      Sign.backquote.char :: (body.rewritten names false).text := by
    rw [← (hbody (p + 1) hinside).1]
    exact Body.plainText_template names h
  simp [rewritten, text_template, before, after, hself]

theorem restates_tagged {tag : Expression} {body : Body}
    (htag : ∀ wrapped, tag.Restates text names wrapped) (hbody : body.Restates text names)
    (wrapped : Bool) : (tagged tag body).Restates text names wrapped := by
  intro p h
  obtain ⟨hopening, hquote⟩ := stands_tagged h
  have hinside := hquote.tail
  rw [Sign.utf8Size_char] at hinside
  have hmarked := Body.normalisedText_template names hquote
  have hplain := Body.plainText_template names hquote
  rw [(hbody _ hinside).2] at hmarked
  rw [(hbody _ hinside).1] at hplain
  have hrestate := restate_tagged h
  have halone : (spaced (tag.before ++ tag.after) (template (body.rewritten names true)) []).text =
      tag.before.text ++ ([] ++ tag.after.text ++
        Sign.backquote.char :: (body.rewritten names true).text) ++ [] := by
    simp [text_spaced, text_template]
  have hbefore : (tagged tag body).before = tag.before := rfl
  have hafter : (tagged tag body).after = [] := rfl
  rw [node_tagged, textOf_tagged, isComposed_node, isMarked_node, rewritten, hbefore, hafter,
    Spacing.text_nil]
  simp only [partsOfOption, List.cons_append, List.nil_append, tagSpan, hmarked, hplain,
    Option.map_none, Option.getD_none]
  split
  · rw [hrestate, halone]
  · split
    · rw [hrestate, htag true p hopening]
      simp
    · split
      · have hspan : Span.mk (tag.node p).range.start (tag.node p).range.stop =
            (tag.node p).range := rfl
        rw [hspan, hrestate, halone]
      · rw [hrestate, text_tagged, htag false p hopening]
        simp

theorem restates_member {object : Expression} (hobject : object.Restates text names false)
    (wrapped : Bool) (g : Spacing) (name : Name) :
    (member object g name).Restates text names wrapped := by
  intro p h
  obtain ⟨hobjectAt, hname⟩ := stands_member h
  have hself : textOf text names wrapped ((member object g name).node p) =
      textOf text names false (object.node p) ++ object.after.text ++
        Sign.dot.char :: (g.text ++ name.chars) := by
    have hrestate := restate_parts [] [⟨object.core, textOf text names false (object.node p),
      object.after.text ++ Sign.dot.char :: g.text⟩, ⟨name.chars, name.chars, []⟩]
      (by simp [object.core_ne_nil, name.chars_ne_nil])
      (by simp [Piece.before, Expression.core_member]) h (List.Perm.refl _)
    have hstop : p + (member object g name).length = p + object.length +
        Text.byteLength object.after.text + 1 + Text.byteLength g.text +
          Text.byteLength name.chars := by
      rw [length_member]
      omega
    have hself := restate_nil hname
    rw [← Expression.length, hstop] at hrestate
    simp only [node, textOf, partsOf, range_node, hself]
    simpa [Piece.parts, Piece.after, Text.byteLength, Expression.length, Nat.add_assoc,
      Node.range] using hrestate
  have hbefore : (member object g name).before = object.before := rfl
  have hafter : (member object g name).after = [] := rfl
  rw [rewritten, text_member, hobject p hobjectAt, hself, hbefore, hafter]
  simp

theorem restates_call {callee : Expression} {given : Arguments}
    (hcallee : callee.Restates text names false) (hgiven : given.Restates text names)
    (wrapped : Bool) : (call callee given).Restates text names wrapped := by
  intro p h
  obtain ⟨hcalleeAt, hinside⟩ := stands_call h
  have hself : textOf text names wrapped ((call callee given).node p) =
      textOf text names false (callee.node p) ++ callee.after.text ++
        Sign.openParen.char :: (given.rewritten names).text := by
    have hgiven := hgiven _ hinside
    have hlead := given.lead_append_before_pieces text names
      (p + callee.length + Text.byteLength callee.after.text + 1)
    have hnext : p + Text.byteLength callee.core +
        Text.byteLength (callee.after.text ++ Sign.openParen.char :: given.lead) =
          p + callee.length + Text.byteLength callee.after.text + 1 +
            Text.byteLength given.lead := by
      simp [Expression.length, Text.byteLength, Nat.add_assoc]
    have hnode : textOf text names wrapped ((call callee given).node p) =
        restate text ⟨p, p + Text.byteLength (call callee given).core⟩
          ((⟨p, p + Text.byteLength callee.core⟩, textOf text names false (callee.node p)) ::
            partsOf text names (given.nodes
              (p + callee.length + Text.byteLength callee.after.text + 1))) := by
      rw [← length, length_call]
      simp [node, textOf, partsOf, range_node, length, Nat.add_assoc]
    rw [hnode, restate_parts [] (⟨callee.core, textOf text names false (callee.node p),
        callee.after.text ++ Sign.openParen.char :: given.lead⟩ ::
      given.pieces text names (p + callee.length + Text.byteLength callee.after.text + 1)) ?_ ?_ h
      ?_]
    · rw [← hgiven]
      simp [Piece.after]
    · exact List.forall_mem_cons.mpr
        ⟨by simp [callee.core_ne_nil], given.ne_nil_of_mem_pieces text names _⟩
    · rw [core_call, ← hlead]
      simp [Piece.before]
    · simp only [Text.byteLength, Nat.add_zero, Piece.parts, hnext,
        given.parts_pieces text names]
      exact List.Perm.refl _
  have hbefore : (call callee given).before = callee.before := rfl
  have hafter : (call callee given).after = [] := rfl
  rw [rewritten, text_call, hcallee p hcalleeAt, hself, hbefore, hafter]
  simp

theorem restates_spaced {inside : Expression} {wrapped : Bool}
    (h : inside.Restates text names wrapped) (g g' : Spacing) :
    (spaced g inside g').Restates text names wrapped := by
  intro p hs
  have hinside := h p hs
  have hnode : (spaced g inside g').node p = inside.node p := rfl
  rw [rewritten, text_spaced, hinside, hnode]
  simp [before, after]

end Expression

namespace Body

theorem restates_last (raw : List Char) : (last raw).Restates text names := by
  intro q _
  simp [lead, holePieces, markedPieces, Piece.after, rewritten, Body.text]

theorem restates_hole {raw : List Char} {inside : Expression} {rest : Body}
    (hinside : inside.Restates text names false) (hrest : rest.Restates text names) :
    (hole raw inside rest).Restates text names := by
  intro q h
  obtain ⟨-, hinsideAt, hrestAt⟩ := stands_hole h
  have hbetween := hinside _ hinsideAt
  obtain ⟨hplain, hmarked⟩ := hrest _ hrestAt
  rw [rewritten, rewritten, text_hole, text_hole, hbetween, ← hplain, ← hmarked]
  constructor <;> simp [lead, holePieces, markedPieces, Piece.after]

end Body

namespace Arguments

theorem restates_closed (g : Spacing) : (closed g).Restates text names := by
  intro q _
  simp [lead, pieces, Piece.after, rewritten, Arguments.text]

theorem restates_last {inside : Expression} (hinside : inside.Restates text names false) :
    (last inside).Restates text names := by
  intro q h
  rw [rewritten, text_last, hinside _ (stands_last h)]
  simp [lead, pieces, Piece.after]

theorem restates_more {inside : Expression} {rest : Arguments}
    (hinside : inside.Restates text names false) (hrest : rest.Restates text names) :
    (more inside rest).Restates text names := by
  intro q h
  obtain ⟨hinsideAt, hrestAt⟩ := stands_more h
  rw [rewritten, text_more, hinside _ hinsideAt, ← hrest _ hrestAt]
  simp [lead, pieces, Piece.after]

end Arguments

end

section
variable (text : List Char) (names : List String)

mutual

theorem Expression.restates : (e : Expression) → (wrapped : Bool) →
    e.Restates text names wrapped
  | .named v, wrapped => Expression.restates_named wrapped v
  | .quoted q, wrapped => Expression.restates_quoted wrapped q
  | .template body, wrapped => Expression.restates_template body.restates wrapped
  | .tagged tag body, wrapped => Expression.restates_tagged tag.restates body.restates wrapped
  | .member object g name, wrapped =>
    Expression.restates_member (object.restates false) wrapped g name
  | .call callee given, wrapped =>
    Expression.restates_call (callee.restates false) given.restates wrapped
  | .spaced g inside g', wrapped => Expression.restates_spaced (inside.restates wrapped) g g'

theorem Body.restates : (b : Body) → b.Restates text names
  | .last raw => Body.restates_last raw
  | .hole _ inside rest => Body.restates_hole (inside.restates false) rest.restates

theorem Arguments.restates : (given : Arguments) → given.Restates text names
  | .closed g => Arguments.restates_closed g
  | .last inside => Arguments.restates_last (inside.restates false)
  | .more inside rest => Arguments.restates_more (inside.restates false) rest.restates

end

end

end Outdent.Written
