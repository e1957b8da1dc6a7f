import Outdent.Proofs.Marker.RewrittenTree
import Outdent.Proofs.Written.Script
/-! # Rewriting written scripts

What a rewrite leaves of a script, told by recursion over how the script is spelled out. It stands
for the rewritten tree, wherever it stands. -/
namespace Outdent.Written

open Syntax Marker Marker.Reference

def Body.isEmpty : Body → Bool
  | .last raw => raw.isEmpty
  | .hole _ _ _ => false

namespace Expression

def isEmptyTemplate : Expression → Bool
  | template body => body.isEmpty
  | spaced _ inside _ => inside.isEmptyTemplate
  | _ => false

def isOpened : Expression → Bool
  | tagged tag _ => tag.isEmptyTemplate
  | spaced _ inside _ => inside.isOpened
  | _ => false

def isMarker (names : List String) : Expression → Bool
  | named v => names.contains v.spelling
  | spaced _ inside _ => inside.isMarker names
  | _ => false

end Expression

mutual

/-- What is left of an expression. Within a wrapper it stands between empty templates. -/
def Expression.rewritten (names : List String) (wrapped : Bool) : Expression → Expression
  | .named v => .named v
  | .quoted text => .quoted text
  | .template body => .template (body.rewritten names false)
  | .tagged tag body =>
    let alone := .spaced (tag.before ++ tag.after) (.template (body.rewritten names true)) []
    if wrapped then alone
    else if tag.isOpened && body.isEmpty then tag.rewritten names true
    else if tag.isMarker names then alone
    else .tagged (tag.rewritten names false) (body.rewritten names false)
  | .member object g name => .member (object.rewritten names false) g name
  | .call callee given => .call (callee.rewritten names false) (given.rewritten names)
  | .spaced g inside g' => .spaced g (inside.rewritten names wrapped) g'

/-- What is left of a template, whose segments lose their indentation if it is marked. -/
def Body.rewritten (names : List String) (marked : Bool) : Body → Body
  | .last raw => .last (if marked then Segment.normalize raw else raw)
  | .hole raw inside rest => .hole (if marked then Segment.normalize raw else raw)
      (inside.rewritten names false) (rest.rewritten names marked)

def Arguments.rewritten (names : List String) : Arguments → Arguments
  | .closed g => .closed g
  | .last inside => .last (inside.rewritten names false)
  | .more inside rest => .more (inside.rewritten names false) (rest.rewritten names)

end

def Statement.rewritten (names : List String) : Statement → Statement
  | .imported g name g' g'' source => .imported g name g' g'' source
  | .constant g name g' value => .constant g name g' (value.rewritten names false)
  | .plain e => .plain (e.rewritten names false)

def Statement.isRemoved : Statement → Bool
  | .imported _ _ _ _ source => source.spelling == moduleName
  | _ => false

/-- What is left of items, where the spacing of a removed import stays in front of the next one. -/
def rewrittenItems (names : List String) (ending : Spacing) : Spacing → List Item → Script
  | g, [] => ⟨[], g ++ ending⟩
  | g, i :: items =>
    if i.content.isRemoved then rewrittenItems names ending (g ++ i.space) items
    else
      let rest := rewrittenItems names ending [] items
      ⟨⟨g ++ i.space, i.content.rewritten names, i.isClosed⟩ :: rest.items, rest.ending⟩

def Script.rewritten (s : Script) : Script :=
  rewrittenItems (Marker.names s.module) s.ending [] s.items

theorem Body.isEmptyDelimiter_template : (b : Body) → (q : Nat) →
    Usage.isEmptyDelimiter (b.template q) = b.isEmpty
  | .last _, _ => rfl
  | .hole _ _ (.last _), _ => rfl
  | .hole _ _ (.hole _ _ _), _ => rfl

namespace Expression

theorem isEmptyTemplate_node : (e : Expression) → (p : Nat) →
    (match e.node p with
      | .template body => Usage.isEmptyDelimiter body
      | _ => false) = e.isEmptyTemplate
  | .template body, p => body.isEmptyDelimiter_template p
  | .spaced _ inside _, p => inside.isEmptyTemplate_node p
  | .named _, _ | .quoted _, _ | .tagged _ _, _ | .member _ _ _, _ | .call _ _, _ => rfl

theorem isComposed_node : (tag : Expression) → (body : Body) → (p q : Nat) →
    isComposed (tag.node p) (body.template q) = (tag.isOpened && body.isEmpty)
  | .tagged opening inner, body, p, q => by
    have hbody := body.isEmptyDelimiter_template q
    have hopening := opening.isEmptyTemplate_node p
    rw [isOpened, ← hopening, ← hbody, node]
    cases opening.node p <;> rfl
  | .spaced _ inside _, body, p, q => inside.isComposed_node body p q
  | .named _, _, _, _ | .quoted _, _, _, _ | .template _, _, _, _ | .member _ _ _, _, _, _
  | .call _ _, _, _, _ => rfl

theorem isMarked_node (names : List String) : (tag : Expression) → (p : Nat) →
    isMarked names (tag.node p) = tag.isMarker names
  | .named v, p => by simp [isMarked, node, Node.name?, isMarker]
  | .spaced _ inside _, p => inside.isMarked_node names p
  | .quoted _, _ | .template _, _ | .tagged _ _, _ | .member _ _ _, _ | .call _ _, _ => rfl

theorem node_template (body : Body) (p : Nat) :
    (template body).node p = .template (body.template p) := rfl

theorem node_tagged (tag : Expression) (body : Body) (p : Nat) : (tagged tag body).node p =
    .tagged ⟨p, p + (tagged tag body).length⟩ (tag.node p) none
      (body.template (p + tag.length + Text.byteLength tag.after.text)) := by
  rw [node, length_tagged]
  simp [Body.template, Nat.add_assoc]

end Expression

theorem Body.segments_rewritten (names : List String) (marked : Bool) : (b : Body) →
    (q q' : Nat) → ((b.rewritten names marked).segments q').map (Segment.move nowhere) =
      (b.segments q).map (if marked then normaliseSegment nowhere else Segment.move nowhere)
  | .last raw, q, q' => by cases marked <;> rfl
  | .hole raw inside rest, q, q' => by
    simp only [Body.rewritten, Body.segments, List.map_cons]
    rw [rest.segments_rewritten names marked]
    cases marked <;> rfl

theorem Body.template_rewritten {names : List String} {marked : Bool} {b : Body} {q q' : Nat}
    (h : ((b.rewritten names marked).holes (q' + 1)).map Node.form =
      (b.holes (q + 1)).map (Marker.rewritten nowhere names false)) :
    ((b.rewritten names marked).template q').move nowhere =
      if marked then normalisedTemplate nowhere names (b.template q)
      else plainTemplate nowhere names (b.template q) := by
  have hsegments := b.segments_rewritten names marked (q + 1) (q' + 1)
  have hmove : Template.move nowhere ((b.rewritten names marked).template q') =
      ⟨⟨0, 0⟩, (b.segments (q + 1)).map
          (if marked then normaliseSegment nowhere else Segment.move nowhere),
        (b.holes (q + 1)).map (Marker.rewritten nowhere names false)⟩ := by
    rw [← hsegments, ← h]
    rfl
  rw [hmove]
  cases marked <;> rfl

mutual

/-- What is left of an expression stands for what becomes of its tree, wherever it stands. -/
theorem Expression.form_rewritten (names : List String) : (wrapped : Bool) → (e : Expression) →
    (p p' : Nat) → ((e.rewritten names wrapped).node p').form =
      Marker.rewritten nowhere names wrapped (e.node p)
  | _, .named v, p, p' => rfl
  | _, .quoted text, p, p' => rfl
  | wrapped, .template body, p, p' => by
    have hbody := Body.template_rewritten (body.form_holes names false (p + 1) (p' + 1))
    rw [Expression.rewritten, Expression.node_template, Expression.node_template,
      rewritten_template, Node.form, move_template, hbody]
    rfl
  | wrapped, .tagged tag body, p, p' => by
    have hplain : ∀ q q', Template.move nowhere _ = _ := fun q q' =>
      Body.template_rewritten (body.form_holes names false (q + 1) (q' + 1))
    have hmarked : ∀ q q', Template.move nowhere _ = _ := fun q q' =>
      Body.template_rewritten (body.form_holes names true (q + 1) (q' + 1))
    have halone : ∀ g q, ((Expression.spaced g (.template (body.rewritten names true)) []).node
        p').form = .template (normalisedTemplate nowhere names (body.template q)) := by
      intro g q
      rw [Expression.node, Expression.node_template, Node.form, move_template, hmarked q]
      rfl
    rw [Expression.node_tagged, rewritten_tagged, Expression.isComposed_node,
      Expression.isMarked_node, Expression.rewritten]
    split
    · exact halone _ _
    · split
      · exact tag.form_rewritten names true p p'
      · split
        · exact halone _ _
        · have htag := tag.form_rewritten names false p p'
          rw [Expression.node_tagged, Node.form, move_tagged, hplain (p + tag.length +
            Text.byteLength tag.after.text), ← htag]
          rfl
  | wrapped, .member object g name, p, p' => by
    have hobject := object.form_rewritten names false p p'
    simp only [Expression.rewritten, Expression.node, rewritten_other, Node.form, move_other,
      List.map_cons, List.map_nil, ← hobject]
    rfl
  | wrapped, .call callee given, p, p' => by
    have hcallee := callee.form_rewritten names false p p'
    have hgiven : ∀ q q', ((given.rewritten names).nodes q').map (Node.move nowhere) = _ :=
      given.form_nodes names
    simp only [Expression.rewritten, Expression.node, rewritten_other, Node.form, move_other,
      List.map_cons, ← hcallee]
    rw [hgiven (p + callee.length + Text.byteLength callee.after.text + 1)]
    rfl
  | wrapped, .spaced g inside g', p, p' => inside.form_rewritten names wrapped p p'

theorem Body.form_holes (names : List String) : (marked : Bool) → (b : Body) → (q q' : Nat) →
    ((b.rewritten names marked).holes q').map Node.form =
      (b.holes q).map (Marker.rewritten nowhere names false)
  | _, .last _, _, _ => rfl
  | marked, .hole raw inside rest, q, q' => by
    simp only [Body.rewritten, Body.holes, List.map_cons]
    rw [inside.form_rewritten names false, rest.form_holes names marked]

theorem Arguments.form_nodes (names : List String) : (given : Arguments) → (q q' : Nat) →
    ((given.rewritten names).nodes q').map Node.form =
      (given.nodes q).map (Marker.rewritten nowhere names false)
  | .closed _, _, _ => rfl
  | .last inside, q, q' => by
    simp only [Arguments.rewritten, Arguments.nodes, List.map_cons, List.map_nil]
    rw [inside.form_rewritten names false]
  | .more inside rest, q, q' => by
    simp only [Arguments.rewritten, Arguments.nodes, List.map_cons]
    rw [inside.form_rewritten names false, rest.form_nodes names]

end

theorem Statement.form_rewritten (names : List String) (c : Statement) (p p' n n' : Nat) :
    ((c.rewritten names).node p' n').form =
      Marker.rewritten nowhere names false (c.node p n) := by
  cases c with
  | imported g name g' g'' source => rfl
  | constant g name g' value =>
    have hvalue : ∀ v v', ((value.rewritten names false).node v').move nowhere =
        Marker.rewritten nowhere names false (value.node v) := value.form_rewritten names false
    simp only [rewritten, node, rewritten_other, Node.form, move_other, List.map_cons,
      List.map_nil]
    rw [hvalue (p + (Lexeme.name constName).length + Text.byteLength g.1.text +
      Text.byteLength name.chars + Text.byteLength g'.text + 1 +
        Text.byteLength value.before.text)]
    rfl
  | plain e =>
    have he := e.form_rewritten names false p p'
    simp only [rewritten, node, rewritten_other, Node.form, move_other, List.map_cons,
      List.map_nil, ← he]
    rfl

theorem isRemoved_node (c : Statement) (p n : Nat) :
    Reference.isRemoved (c.node p n) = c.isRemoved := by
  cases c <;> rfl

theorem form_rewrittenItems (names : List String) (ending : Spacing) : (items : List Item) →
    (g : Spacing) → (q q' : Nat) →
    (nodesOfItems q' (rewrittenItems names ending g items).items).map Node.form =
      ((nodesOfItems q items).filter fun n => !Reference.isRemoved n).map
        (Marker.rewritten nowhere names false)
  | [], _, _, _ => rfl
  | i :: items, g, q, q' => by
    have hremoved : Reference.isRemoved (i.node q) = i.content.isRemoved :=
      isRemoved_node i.content _ _
    rw [rewrittenItems, nodesOfItems, List.filter_cons, hremoved]
    cases i.content.isRemoved with
    | true => exact form_rewrittenItems names ending items _ _ _
    | false =>
      simp only [Bool.not_false, if_true, List.map_cons, nodesOfItems, if_neg Bool.false_ne_true]
      rw [form_rewrittenItems names ending items [] (q + Text.byteLength i.text)]
      exact congrArg (· :: _) (i.content.form_rewritten names _ _ _ _)

theorem form_module_rewritten (s : Script) :
    s.rewritten.module.form = rewrittenModule nowhere s.module := by
  have hitems := form_rewrittenItems (Marker.names s.module) s.ending s.items [] 0 0
  simp only [Module.form, moveAll_eq, rewrittenModule, rewrittenAll_eq]
  exact congrArg Syntax.Module.mk hitems

end Outdent.Written
