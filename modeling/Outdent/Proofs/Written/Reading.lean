import Outdent.Proofs.Written.Operand
import Outdent.Syntax.Parse
/-! # Reading written expressions

An expression that is spelled out is read as the tree it stands for, whatever stands behind it, if
no operand goes on there. By induction over the expression: a reader that comes to its first lexeme
takes its links one after another. -/
namespace Outdent.Written

open Syntax Reader Grammar

/-- Text that ends an operand. -/
structure Closer (rest : List Char) : Prop extends Follower rest where
  ends : ∀ q, (Scan.ofInput q ⟨rest, q⟩).token.endsOperand = true

theorem breaks_space {c : Char} (h : (isLineBreak c || isInlineBlank c || c == '/') = true) :
    Text.isIdentifierPart c = false ∧ c ≠ '\\' := by
  simp only [Bool.or_eq_true, beq_iff_eq] at h
  rcases h with (hbreak | hblank) | rfl
  · refine ⟨not_isIdentifierPart_of_isLineBreak hbreak, ?_⟩
    rintro rfl
    exact absurd hbreak (by decide)
  · refine ⟨not_isIdentifierPart_of_isInlineBlank hblank, ?_⟩
    rintro rfl
    exact absurd hblank (by decide)
  · decide

theorem breaks_spacing (g : Spacing) (rest : List Char)
    (h : ∀ c ∈ rest.head?, Text.isIdentifierPart c = false ∧ c ≠ '\\') :
    ∀ c ∈ (g.text ++ rest).head?, Text.isIdentifierPart c = false ∧ c ≠ '\\' :=
  forall_head_spacing g (fun _ hc _ => breaks_space hc) h

theorem ends_name (m : Name) {rest : List Char}
    (h : ∀ c ∈ rest.head?, Text.isIdentifierPart c = false ∧ c ≠ '\\') :
    (Lexeme.name m).Ends rest := fun c hc => by simp [Lexeme.endsBefore, h c hc]

theorem follower_sign (g : Spacing) {sign : Sign} (hsign : sign ≠ .assign) {rest : List Char}
    (hrest : (Lexeme.sign sign).Ends rest) : Follower (g.text ++ sign.char :: rest) := by
  have hscan : ∀ p, Scan.ofInput p ⟨g.text ++ sign.char :: rest, p⟩ = _ :=
    fun p => scan_lexeme g (.sign sign) hrest p p
  constructor
  · apply breaks_spacing g
    rintro c hc
    obtain rfl : sign.char = c := Option.some.inj hc
    cases sign <;> decide
  · exact scans_lexeme g hrest
  · intro q
    rw [hscan]
    cases sign <;> simp_all [Token.followsOperand, Token.endsOperand, Lexeme.kind, Sign.mark]

theorem isMark_sign (g : Spacing) {sign : Sign} {rest : List Char}
    (h : (Lexeme.sign sign).Ends rest) (m : Mark) (q : Nat) :
    (Scan.ofInput q ⟨g.text ++ sign.char :: rest, q⟩).token.isMark m = (sign.mark == m) := by
  have hscan : Scan.ofInput q ⟨g.text ++ sign.char :: rest, q⟩ = _ :=
    scan_lexeme g (.sign sign) h q q
  rw [hscan, Token.isMark, Lexeme.kind]
  by_cases hm : sign.mark = m <;> simp [hm]

theorem closer_sign (g : Spacing) (sign : Sign)
    (hsign : sign ∈ [Sign.semicolon, .comma, .closeParen, .closeBrace]) (rest : List Char) :
    Closer (g.text ++ sign.char :: rest) := by
  have hne : sign ≠ .assign := by
    rintro rfl
    simp at hsign
  have hends : (Lexeme.sign sign).Ends rest := by
    intro c _
    simp at hsign
    rcases hsign with rfl | rfl | rfl | rfl <;> rfl
  refine ⟨follower_sign g hne hends, fun q => ?_⟩
  have hscan : Scan.ofInput q ⟨g.text ++ sign.char :: rest, q⟩ = _ :=
    scan_lexeme g (.sign sign) hends q q
  rw [hscan]
  simp at hsign
  rcases hsign with rfl | rfl | rfl | rfl <;> simp [Token.endsOperand, Lexeme.kind, Sign.mark]

namespace Expression

theorem isOperand_node : (e : Expression) → (p : Nat) → (e.node p).isOperand = true
  | .named _, _ | .quoted _, _ | .template _, _ | .tagged _ _, _ | .member _ _ _, _
  | .call _ _, _ => rfl
  | .spaced _ inside _, p => inside.isOperand_node p

theorem start_node : (e : Expression) → (p : Nat) → (e.node p).start = p
  | .named _, _ | .quoted _, _ | .template _, _ | .tagged _ _, _ | .member _ _ _, _
  | .call _ _, _ => rfl
  | .spaced _ inside _, p => inside.start_node p

theorem kind_first : (e : Expression) →
    [.word .other, .string, .mark .backquote].contains e.first.kind = true
  | .named v => by simp [first, Lexeme.kind, word_of_variable]
  | .quoted _ => rfl
  | .template _ => rfl
  | .tagged tag _ => tag.kind_first
  | .member object _ _ => object.kind_first
  | .call callee _ => callee.kind_first
  | .spaced _ inside _ => inside.kind_first

theorem ends_first : (e : Expression) → {rest : List Char} →
    (∀ c ∈ rest.head?, Text.isIdentifierPart c = false ∧ c ≠ '\\') → e.first.Ends (e.tail ++ rest)
  | .named v, _, h => ends_name v.toName h
  | .quoted _, _, _ => fun _ _ => rfl
  | .template _, _, _ => fun _ _ => rfl
  | .tagged tag body, rest, _ => by
    have hquote := breaks_spacing tag.after (Sign.backquote.char :: (body.text ++ rest))
      (by rintro c hc; obtain rfl := Option.some.inj hc; decide)
    simpa [first, tail] using tag.ends_first hquote
  | .member object g name, rest, _ => by
    have hdot := breaks_spacing object.after
      (Sign.dot.char :: (g.text ++ (name.chars ++ rest)))
      (by rintro c hc; obtain rfl := Option.some.inj hc; decide)
    simpa [first, tail] using object.ends_first hdot
  | .call callee given, rest, _ => by
    have hopen := breaks_spacing callee.after
      (Sign.openParen.char :: (given.text ++ rest))
      (by rintro c hc; obtain rfl := Option.some.inj hc; decide)
    simpa [first, tail] using callee.ends_first hopen
  | .spaced _ inside _, _, h => inside.ends_first h

def hasCall : Expression → Bool
  | named _ | quoted _ | template _ => false
  | tagged tag _ => tag.hasCall
  | member object _ _ => object.hasCall
  | call _ _ => true
  | spaced _ inside _ => inside.hasCall

end Expression

theorem opensOperand_of_holds {e : Expression} {s : State} {p : Nat} {rest : List Char}
    (h : Holds s e.first p rest) : s.token.opensOperand = true := by
  rw [Token.opensOperand, h.kind]
  exact e.kind_first

theorem Expression.text_append (e : Expression) (rest : List Char) : e.text ++ rest =
    e.before.text ++ (e.first.chars ++ (e.tail ++ (e.after.text ++ rest))) := by
  simp [text, core]

theorem scans_text {e : Expression} {rest : List Char} (h : Follower (e.after.text ++ rest)) :
    Scans (e.text ++ rest) := by
  rw [e.text_append]
  exact scans_lexeme e.before (e.ends_first h.breaks)

theorem holds_first {e : Expression} {s : State} {q : Nat} {rest : List Char} {a : Option Nat}
    (h : Follower (e.after.text ++ rest)) : Holds (s.behind (e.text ++ rest) q a) e.first
      (q + Text.byteLength e.before.text) (e.tail ++ (e.after.text ++ rest)) := by
  rw [e.text_append]
  exact holds_behind e.before (e.ends_first h.breaks)

theorem holds_sign (g : Spacing) {sign : Sign} {s : State} {q : Nat} {rest : List Char}
    {a : Option Nat} (h : (Lexeme.sign sign).Ends rest) :
    Holds (s.behind (g.text ++ sign.char :: rest) q a) (.sign sign) (q + Text.byteLength g.text)
      rest := holds_behind g h

/-- A reader has gone over an expression and looks for another link. -/
def Chained (g : Grammar) (e : Expression) (s : State) (p : Nat) (rest : List Char) : Prop :=
  ∃ k a, s.budget ≤ k + e.core.length ∧
    (if e.hasCall then leftHand g else memberOperand g) s =
      (Prod.fst <$> iterate (chainStep g e.hasCall p) k (e.node p, true))
        (s.behind rest (p + e.length) a)

section
variable {g : Grammar} {e e' : Expression} {s : State} {p : Nat} {rest rest' : List Char}

theorem chained_of_primary (hs : Holds s e.first p (e.tail ++ rest)) (hrest : Follower rest)
    (hcall : e.hasCall = false) {a : Option Nat}
    (h : primary g s = (.ok (e.node p), s.behind rest (p + e.length) a)) :
    Chained g e s p rest := by
  refine ⟨s.budget, a, Nat.le_add_right _ _, ?_⟩
  have hmember := memberOperand_apply g (opensOperand_of_holds hs) h (e.isOperand_node p)
    (hrest.follows _)
  rw [hcall, if_neg (by simp), hmember, chain_apply, e.start_node]
  rfl

theorem Chained.next (h : Chained g e s p rest) (hbudget : e.core.length < s.budget)
    (hlonger : e.core.length < e'.core.length) (hcall : e'.hasCall = e.hasCall)
    (hlink : ∀ a, ∃ a', link? g { calls := e.hasCall } p (e.node p)
      (s.behind rest (p + e.length) a) =
        (.ok (some (e'.node p, true)), s.behind rest' (p + e'.length) a')) :
    Chained g e' s p rest' := by
  obtain ⟨k, a, hk, h⟩ := h
  obtain ⟨a', hlink⟩ := hlink a
  obtain ⟨k, rfl⟩ : ∃ j, k = j + 1 := ⟨k - 1, by omega⟩
  refine ⟨k, a', by omega, ?_⟩
  have hstep : chainStep g e.hasCall p (e.node p, true) (s.behind rest (p + e.length) a) =
      (.ok (some (e'.node p, true)), s.behind rest' (p + e'.length) a') := hlink
  rw [hcall, h, map_apply, iterate_succ, hstep, map_apply]

theorem Chained.over (h : Chained g e s p rest)
    (hlink : ∀ a, link? g { calls := e.hasCall } p (e.node p) (s.behind rest (p + e.length) a) =
      (.ok none, s.behind rest (p + e.length) a)) :
    ∃ a, (if e.hasCall then leftHand g else memberOperand g) s =
      (.ok (e.node p), s.behind rest (p + e.length) a) := by
  obtain ⟨k, a, -, h⟩ := h
  have hstep : chainStep g e.hasCall p (e.node p, true) (s.behind rest (p + e.length) a) =
      (.ok none, s.behind rest (p + e.length) a) := hlink a
  exact ⟨a, by rw [h, map_apply, iterate_of_none hstep]⟩

theorem Chained.call {given : Arguments} (h : Chained g e s p rest)
    (hs : Holds s e.first p (e.tail ++ rest))
    (hopen : ∀ a, ∃ q text, Holds (s.behind rest (p + e.length) a) (.sign .openParen) q text)
    (hlonger : e.core.length < (e.call given).core.length) (hbudget : e.core.length < s.budget)
    (hgiven : ∀ a, ∃ a', arguments g (s.behind rest (p + e.length) a) =
      (.ok (given.nodes (p + e.length + Text.byteLength e.after.text + 1)),
        s.behind rest' (p + (e.call given).length) a')) :
    Chained g (e.call given) s p rest' := by
  have hnode : Node.other .call ⟨p, p + (e.call given).length⟩
      (e.node p :: given.nodes (p + e.length + Text.byteLength e.after.text + 1)) =
        (e.call given).node p := by
    rw [Expression.length_call, Expression.node]
    simp only [Nat.add_assoc]
  cases hcall : e.hasCall with
  | true =>
    apply h.next hbudget hlonger (by rw [hcall]; rfl)
    intro a
    obtain ⟨q, text, hopen⟩ := hopen a
    obtain ⟨a', hgiven⟩ := hgiven a
    rw [hcall, link?_call g p (e.isOperand_node p) hopen hgiven]
    exact ⟨a', by rw [← hnode]; rfl⟩
  | false =>
    obtain ⟨a, hmember⟩ := h.over fun a => by
      obtain ⟨q, text, hopen⟩ := hopen a
      rw [hcall]
      exact link?_openParen g p (e.isOperand_node p) hopen
    rw [hcall, if_neg (by simp)] at hmember
    obtain ⟨q, text, hopen⟩ := hopen a
    obtain ⟨a', hgiven⟩ := hgiven a
    have hleft := leftHand_of_call (opensOperand_of_holds hs) hmember (e.isOperand_node p) hopen
      hgiven
    refine ⟨s.budget, a', Nat.le_add_right _ _, ?_⟩
    have hnow : (e.call given).hasCall = true := rfl
    rw [hnow, if_pos rfl, hleft, chain_apply, ← hnode, e.start_node]
    rfl

theorem Chained.leftHand_apply (h : Chained g e s p rest)
    (hs : Holds s e.first p (e.tail ++ rest)) (hrest : Closer rest) :
    ∃ a, leftHand g s = (.ok (e.node p), s.behind rest (p + e.length) a) := by
  obtain ⟨a, hread⟩ := h.over fun a =>
    link?_of_endsOperand g e.hasCall p (e.isOperand_node p) (hrest.ends _)
  refine ⟨a, ?_⟩
  cases hcall : e.hasCall with
  | true => simpa [hcall] using hread
  | false =>
    have hmember : memberOperand g s = (.ok (e.node p), s.behind rest (p + e.length) a) := by
      simpa [hcall] using hread
    exact leftHand_of_memberOperand (opensOperand_of_holds hs) hmember (e.isOperand_node p)
      (hrest.ends _)

theorem within_apply {α : Type} {f : Context → Context} {r : Reader α} {x : α} {q : Nat}
    {a : Option Nat} (h : r { s with context := f s.context } =
      (.ok x, { s with context := f s.context }.behind rest q a)) :
    within f r s = (.ok x, s.behind rest q a) := by
  simp only [within, h]
  rfl

end

/-- Whether the grammar of a depth goes over an expression wherever a reader comes to it. -/
def Expression.IsChained (e : Expression) (depth : Nat) : Prop :=
  ∀ ⦃s : State⦄ ⦃p : Nat⦄ ⦃rest : List Char⦄, e.core.length < s.budget →
    Holds s e.first p (e.tail ++ rest) → Follower rest → Chained (ofDepth depth) e s p rest

/-- Whether the grammar of a depth reads a template behind its opening backquote, as the rest of the
template in hand. -/
def Body.IsRead (b : Body) (isTagged : Bool) (depth : Nat) : Prop :=
  ∀ (s : State) (q k : Nat) (rest : List Char) (segments : List Segment) (holes : List Node)
    (delimiter : Nat), b.text.length < s.budget → b.text.length ≤ k →
    s.rest = ⟨b.text ++ rest, q⟩ → Scans rest →
    ∃ a, iterate (templateStep (within ({ · with inJoins := true }) (ofDepth depth .expression))
        isTagged) k ⟨segments, holes, some delimiter⟩ s =
      (.ok ⟨(b.segments q).reverse ++ segments, (b.holes q).reverse ++ holes, none⟩,
        s.behind rest (q + Text.byteLength b.text) a)

def separatedStep {α : Type} (close : Mark) (item : Reader α) :
    List α × Bool → Reader (Option (List α × Bool)) := fun (found, isOver) => do
  if isOver || (← onEnd) || (← on close) then return none
  let next ← item
  if ← on close then return some (next :: found, true)
  need .comma
  return some (next :: found, false)

theorem separated_apply {α : Type} (close : Mark) (item : Reader α) (s : State) :
    separated close item s =
      ((·.1.reverse) <$> iterate (separatedStep close item) s.budget ([], false)) s := by
  rw [map_apply]
  rfl

/-- Whether the grammar of a depth reads arguments up to their closing parenthesis. -/
def Arguments.IsRead (given : Arguments) (depth : Nat) : Prop :=
  ∀ (s : State) (q k : Nat) (rest : List Char) (found : List Node) (a : Option Nat),
    given.text.length < s.budget → given.text.length ≤ k →
    ∃ isOver text r a', iterate (separatedStep .closeParen (spreadable (ofDepth depth))) k
        (found, false) (s.behind (given.text ++ rest) q a) =
      (.ok ((given.nodes q).reverse ++ found, isOver), s.behind text r a') ∧
      Holds (s.behind text r a') (.sign .closeParen) (q + Text.byteLength given.text - 1) rest

section
variable {e : Expression} {s : State} {p q depth : Nat} {rest : List Char}

theorem Expression.IsChained.assignment_apply (h : e.IsChained depth)
    (hbudget : e.core.length < s.budget) (hs : Holds s e.first p (e.tail ++ rest))
    (hrest : Closer rest) : ∃ a, ofDepth (depth + 1) .assignment s =
      (.ok (e.node p), s.behind rest (p + e.length) a) := by
  have hstart : Holds { s with
      arrowStart := if startsArrow s.token then some s.token.start else none } e.first p
      (e.tail ++ rest) := hs.congr rfl rfl
  have hchained := h (by exact hbudget) hstart hrest.toFollower
  obtain ⟨a, hleft⟩ := hchained.leftHand_apply hstart hrest
  exact ⟨a, Written.assignment_apply (opensOperand_of_holds hs) hleft (e.isOperand_node p)
    (hrest.ends _)⟩

theorem Expression.IsChained.expression_apply (h : e.IsChained depth)
    (hbudget : e.core.length < s.budget) (hs : Holds s e.first p (e.tail ++ rest))
    (hrest : Closer rest)
    (hcomma : ∀ q, (Scan.ofInput q ⟨rest, q⟩).token.isMark .comma = false) :
    ∃ a, ofDepth (depth + 2) .expression s =
      (.ok (e.node p), s.behind rest (p + e.length) a) := by
  obtain ⟨a, hassignment⟩ := h.assignment_apply hbudget hs hrest
  refine ⟨a, ?_⟩
  have hon : (s.behind rest (p + e.length) a).token.isMark .comma = false := hcomma _
  change Grammar.expression (ofDepth (depth + 1)) s = _
  simp [Grammar.expression, hassignment, hon]

theorem Expression.IsChained.hole_apply (h : e.IsChained depth)
    (hbudget : e.core.length < s.budget) (hrest : Closer (e.after.text ++ rest))
    (hcomma : ∀ q, (Scan.ofInput q ⟨e.after.text ++ rest, q⟩).token.isMark .comma = false)
    (a : Option Nat) : ∃ a', within ({ · with inJoins := true }) (ofDepth (depth + 2) .expression)
        (s.behind (e.text ++ rest) q a) =
      (.ok (e.node (q + Text.byteLength e.before.text)),
        s.behind (e.after.text ++ rest) (q + Text.byteLength e.before.text + e.length) a') := by
  obtain ⟨a', hread⟩ := h.expression_apply
    (s := { s with context := { s.context with inJoins := true } }.behind (e.text ++ rest) q a)
    hbudget (holds_first hrest.toFollower) hrest hcomma
  exact ⟨a', within_apply hread⟩

theorem Expression.IsChained.argument_apply (h : e.IsChained depth)
    (hbudget : e.core.length < s.budget) (hrest : Closer (e.after.text ++ rest))
    (a : Option Nat) : ∃ a', spreadable (ofDepth (depth + 1)) (s.behind (e.text ++ rest) q a) =
      (.ok (e.node (q + Text.byteLength e.before.text)),
        s.behind (e.after.text ++ rest) (q + Text.byteLength e.before.text + e.length) a') := by
  obtain ⟨a', hread⟩ := h.assignment_apply
    (s := { s with context := { s.context with inJoins := true } }.behind (e.text ++ rest) q a)
    hbudget (holds_first hrest.toFollower) hrest
  have hjoined : within ({ · with inJoins := true }) (ofDepth (depth + 1) .assignment)
      (s.behind (e.text ++ rest) q a) =
        (.ok (e.node (q + Text.byteLength e.before.text)),
          s.behind (e.after.text ++ rest) (q + Text.byteLength e.before.text + e.length) a') :=
    within_apply hread
  have hopens := opensOperand_of_holds (s := s.behind (e.text ++ rest) q a)
    (holds_first hrest.toFollower)
  have hellipsis := Token.isMark_of_opensOperand hopens (m := .ellipsis) (by simp)
  exact ⟨a', by simp [spreadable, take_of_not_isMark hellipsis, hjoined]⟩

/-- A stretch of template text is read up to its delimiter; a hole is read from there. -/
theorem templateStep_apply (hole : Reader Node) {raw : List Char} {isTagged : Bool}
    (hraw : IsSegment isTagged raw) {ending : TemplateEnd} (hending : ending ≠ .unterminated)
    (hs : s.rest = ⟨raw ++ ending.delimiter ++ rest, q⟩) (hrest : Scans rest)
    (segments : List Segment) (holes : List Node) (delimiter : Nat) :
    templateStep hole isTagged ⟨segments, holes, some delimiter⟩ s =
      (if ending = .closed then (pure (some ⟨⟨⟨q, q + Text.byteLength raw⟩, raw⟩ :: segments,
          holes, none⟩) : Reader (Option TemplateProgress))
        else do
          let inside ← hole
          unless ← on .closeBrace do fail
          return some ⟨⟨⟨q, q + Text.byteLength raw⟩, raw⟩ :: segments, inside :: holes,
            some (← here)⟩)
        (s.behind rest (q + Text.byteLength raw + Text.byteLength ending.delimiter)
          s.arrowStart) := by
  have hread := readsSegment hraw ending hending rest q
  have htext : TemplateText.ofInput s.rest =
      TemplateText.read 0 (raw ++ ending.delimiter ++ rest) q := by
    rw [hs]
    rfl
  have hposition : s.rest.position = q := by rw [hs]
  have hresume := resume_apply s hrest (q + Text.byteLength raw +
    Text.byteLength ending.delimiter)
  rw [← htext] at hread
  simp only [templateStep, bind_apply, get_apply, hread.ending_eq, hread.raw_eq, hread.stop_eq,
    hread.rest_eq, if_neg hending, hposition]
  rcases hread.isPermitted with rfl | hnone
  · cases (TemplateText.ofInput s.rest).badEscape <;> simp only [if_true, bind_apply, hresume]
  · simp only [hnone, bind_apply, hresume]

theorem Body.isRead_last {raw : List Char} {isTagged : Bool} (hraw : IsSegment isTagged raw) :
    (Body.last raw).IsRead isTagged depth := by
  intro s q k rest segments holes delimiter _ hk hs hrest
  obtain ⟨k, rfl⟩ : ∃ j, k = j + 1 := ⟨k - 1, by
    simp only [Body.text, TemplateEnd.delimiter, List.length_append, List.length_singleton] at hk
    omega⟩
  refine ⟨s.arrowStart, ?_⟩
  rw [iterate_succ, templateStep_apply _ hraw (by decide) hs hrest, if_pos rfl, pure_apply]
  simp only []
  rw [iterate_of_none rfl]
  simp [Body.segments, Body.holes, Body.text, Text.byteLength_append, Nat.add_assoc]

theorem Body.isRead_hole {raw : List Char} {inside : Expression} {b : Body} {isTagged : Bool}
    (hraw : IsSegment isTagged raw) (hinside : inside.IsChained depth)
    (hb : b.IsRead isTagged (depth + 2)) :
    (Body.hole raw inside b).IsRead isTagged (depth + 2) := by
  intro s q k rest segments holes delimiter hbudget hk hs hrest
  have hdelimiter : Text.byteLength TemplateEnd.hole.delimiter = 2 := rfl
  have hlength := inside.length_core_le
  simp only [Body.text_hole, List.append_assoc, List.cons_append, List.length_append,
    List.length_cons] at hbudget hk hs
  rw [← List.append_assoc] at hs
  have hclose := closer_sign inside.after .closeBrace (by decide) (b.text ++ rest)
  obtain ⟨k, rfl⟩ : ∃ j, k = j + 1 := ⟨k - 1, by omega⟩
  have hstep := templateStep_apply (within ({ · with inJoins := true })
    (ofDepth (depth + 2) .expression)) hraw (by decide) hs (scans_text hclose.toFollower) segments
    holes delimiter
  obtain ⟨a, hread⟩ := hinside.hole_apply (s := s) (q := q + Text.byteLength raw + 2)
    (by omega) hclose (isMark_sign inside.after (fun _ _ => rfl) .comma) s.arrowStart
  have hbrace : Holds (s.behind (inside.after.text ++ Sign.closeBrace.char :: (b.text ++ rest))
      (q + Text.byteLength raw + 2 + Text.byteLength inside.before.text + inside.length) a) _ _ _ :=
    holds_sign inside.after fun _ _ => rfl
  have hon := isMark_of_holds hbrace .closeBrace
  rw [hdelimiter, if_neg (by decide), bind_apply, hread] at hstep
  simp only [bind_apply, on_apply, hon, Sign.mark] at hstep
  simp at hstep
  rw [hbrace.start] at hstep
  obtain ⟨a', hb⟩ := hb _ _ k _ _ _ _ (by rw [State.budget_behind]; omega) (by omega) hbrace.rest
    hrest
  refine ⟨a', ?_⟩
  rw [iterate_succ, hstep]
  simp only []
  rw [hb]
  simp [Body.segments, Body.holes, Body.text_hole, Expression.byteLength_text, hdelimiter,
    Nat.add_assoc, Text.byteLength]

theorem take_apply_of_holds {sign : Sign} (h : Holds s (.sign sign) q rest) (hrest : Scans rest) :
    take sign.mark s = (.ok true, s.behind rest (q + 1) s.arrowStart) := by
  have hmark : s.token.isMark sign.mark = true := by simp [isMark_of_holds h]
  simp [take_apply, hmark, advance_apply h hrest]

theorem need_apply_of_holds {sign : Sign} (h : Holds s (.sign sign) q rest) (hrest : Scans rest) :
    need sign.mark s = (.ok (), s.behind rest (q + 1) s.arrowStart) := by
  simp [need, take_apply_of_holds h hrest]

theorem scans_arguments (given : Arguments) (rest : List Char) : Scans (given.text ++ rest) := by
  cases given with
  | closed g =>
    rw [Arguments.text, List.append_assoc]
    exact scans_lexeme g (l := .sign .closeParen) fun _ _ => rfl
  | last inside =>
    rw [Arguments.text_last, List.append_assoc]
    exact scans_text (closer_sign inside.after .closeParen (by decide) rest).toFollower
  | more inside given =>
    rw [Arguments.text_more, List.append_assoc]
    exact scans_text (closer_sign inside.after .comma (by decide) (given.text ++ rest)).toFollower

theorem separatedStep_of_holds {item : Reader Node} {found : List Node} {isOver : Bool}
    (h : Holds s (.sign .closeParen) q rest) :
    separatedStep .closeParen item (found, isOver) s = (.ok none, s) := by
  have hon := isMark_of_holds h .closeParen
  cases isOver <;> simp [separatedStep, h.kind, hon, Sign.mark]

theorem separatedStep_apply {item : Reader Node} {n : Node} {s' : State}
    (h : s.token.opensOperand = true) (hitem : item s = (.ok n, s')) (found : List Node) :
    separatedStep .closeParen item (found, false) s =
      (if s'.token.isMark .closeParen then (.ok (some (n :: found, true)), s')
        else (do need .comma; return some (n :: found, false) : Reader _) s') := by
  have hend : (s.token.kind == .endOfText) = false := by
    by_contra hne
    simp only [Bool.not_eq_false, beq_iff_eq] at hne
    simp [Token.opensOperand, hne] at h
  have hclose := Token.isMark_of_opensOperand h (m := .closeParen) (by decide)
  simp [separatedStep, hend, hclose, hitem]

theorem Arguments.isRead_closed (g : Spacing) : (Arguments.closed g).IsRead depth := by
  intro s q k rest found a _ _
  have hclose : Holds (s.behind (g.text ++ Sign.closeParen.char :: rest) q a) _ _ _ :=
    holds_sign g fun _ _ => rfl
  refine ⟨false, _, q, a, ?_, by simpa [Arguments.text, Text.byteLength] using hclose⟩
  have htext : (Arguments.closed g).text ++ rest = g.text ++ Sign.closeParen.char :: rest := by
    simp [Arguments.text]
  rw [htext, iterate_of_none (separatedStep_of_holds hclose)]
  rfl

theorem Arguments.isRead_last {inside : Expression} (hinside : inside.IsChained depth) :
    (Arguments.last inside).IsRead (depth + 1) := by
  intro s q k rest found a hbudget hk
  have hlength := inside.length_core_le
  rw [Arguments.text_last, List.length_append, List.length_singleton] at hbudget hk
  obtain ⟨k, rfl⟩ : ∃ j, k = j + 1 := ⟨k - 1, by omega⟩
  have hend := closer_sign inside.after .closeParen (by decide) rest
  obtain ⟨a', hread⟩ := hinside.argument_apply (s := s) (q := q) (by omega) hend a
  have hclose : Holds (s.behind (inside.after.text ++ Sign.closeParen.char :: rest)
      (q + Text.byteLength inside.before.text + inside.length) a') _ _ _ :=
    holds_sign inside.after fun _ _ => rfl
  have hstep := separatedStep_apply (opensOperand_of_holds (holds_first hend.toFollower)) hread
    found
  rw [if_pos (by simp [isMark_of_holds hclose, Sign.mark])] at hstep
  have hplace : q + Text.byteLength inside.before.text + inside.length +
      Text.byteLength inside.after.text = q + Text.byteLength (Arguments.last inside).text - 1 := by
    simp [Arguments.text_last, Expression.byteLength_text, Text.byteLength]
    omega
  refine ⟨true, inside.after.text ++ Sign.closeParen.char :: rest,
    q + Text.byteLength inside.before.text + inside.length, a', ?_, hplace ▸ hclose⟩
  rw [Arguments.text_last, List.append_assoc, List.singleton_append, iterate_succ, hstep]
  simp only []
  rw [iterate_of_none (separatedStep_of_holds hclose)]
  rfl

theorem Arguments.isRead_more {inside : Expression} {given : Arguments}
    (hinside : inside.IsChained depth) (hgiven : given.IsRead (depth + 1)) :
    (Arguments.more inside given).IsRead (depth + 1) := by
  intro s q k rest found a hbudget hk
  have hlength := inside.length_core_le
  rw [Arguments.text_more, List.length_append, List.length_cons] at hbudget hk
  obtain ⟨k, rfl⟩ : ∃ j, k = j + 1 := ⟨k - 1, by omega⟩
  have hend := closer_sign inside.after .comma (by decide) (given.text ++ rest)
  obtain ⟨a', hread⟩ := hinside.argument_apply (s := s) (q := q) (by omega) hend a
  have hcomma : Holds (s.behind (inside.after.text ++ Sign.comma.char :: (given.text ++ rest))
      (q + Text.byteLength inside.before.text + inside.length) a') _ _ _ :=
    holds_sign inside.after fun _ _ => rfl
  have hneed := need_apply_of_holds hcomma (scans_arguments given rest)
  have hstep := separatedStep_apply (opensOperand_of_holds (holds_first hend.toFollower)) hread
    found
  rw [if_neg (by simp [isMark_of_holds hcomma, Sign.mark]), bind_apply] at hstep
  simp only [Sign.mark] at hneed
  rw [hneed] at hstep
  simp only [State.behind_behind, State.arrowStart_behind, pure_apply] at hstep
  have hplace : q + Text.byteLength inside.before.text + inside.length +
      Text.byteLength inside.after.text + 1 = q + Text.byteLength inside.text + 1 := by
    rw [Expression.byteLength_text]
    omega
  have hend : Text.byteLength (Arguments.more inside given).text =
      Text.byteLength inside.text + 1 + Text.byteLength given.text := by
    simp [Arguments.text_more, Text.byteLength, Nat.add_assoc]
  obtain ⟨isOver, text, r, a'', hread, hclose⟩ := hgiven s (q + Text.byteLength inside.text + 1) k
    rest (inside.node (q + Text.byteLength inside.before.text) :: found) a' (by omega) (by omega)
  refine ⟨isOver, text, r, a'', ?_, by rwa [hend, ← Nat.add_assoc, ← Nat.add_assoc]⟩
  rw [Arguments.text_more, List.append_assoc, List.cons_append, iterate_succ, hstep]
  simp only []
  rw [hplace, hread]
  simp [Arguments.nodes]

theorem Arguments.IsRead.parenthesised_apply {given : Arguments} (h : given.IsRead depth)
    (hbudget : given.text.length < s.budget)
    (hopen : Holds s (.sign .openParen) q (given.text ++ rest)) (hrest : Scans rest) :
    ∃ a, (do
        need .openParen
        let found ← separated .closeParen (spreadable (ofDepth depth))
        need .closeParen
        return found : Reader (List Node)) s =
      (.ok (given.nodes (q + 1)), s.behind rest (q + 1 + Text.byteLength given.text) a) := by
  have hneed : need .openParen s = _ := need_apply_of_holds hopen (scans_arguments given rest)
  obtain ⟨isOver, text, r, a, hread, hclose⟩ :=
    h s (q + 1) s.budget rest [] s.arrowStart hbudget hbudget.le
  have hneed' : need .closeParen (s.behind text r a) = _ := need_apply_of_holds hclose hrest
  have hplace : q + 1 + Text.byteLength given.text - 1 + 1 =
      q + 1 + Text.byteLength given.text := by omega
  rw [hplace] at hneed'
  exact ⟨a, by simp [hneed, separated_apply, hread, hneed']⟩

theorem Arguments.IsRead.arguments_apply {given : Arguments} (h : given.IsRead depth)
    (hbudget : given.text.length < s.budget)
    (hopen : Holds s (.sign .openParen) q (given.text ++ rest)) (hrest : Scans rest) :
    ∃ a, Grammar.arguments (ofDepth depth) s = (.ok (given.nodes (q + 1)),
      s.behind rest (q + 1 + Text.byteLength given.text) a) := by
  have hheld : Holds { s with context := { s.context with colonDue := false } } (.sign .openParen)
      q (given.text ++ rest) := hopen.congr rfl rfl
  obtain ⟨a, hread⟩ := h.parenthesised_apply (by exact hbudget) hheld hrest
  exact ⟨a, within_apply hread⟩

theorem Body.IsRead.template_apply {b : Body} {isTagged : Bool} (h : b.IsRead isTagged depth)
    (hbudget : b.text.length < s.budget) (hs : Holds s (.sign .backquote) q (b.text ++ rest))
    (hrest : Scans rest) : ∃ a, Grammar.template (ofDepth depth) isTagged s =
      (.ok (b.template q), s.behind rest (q + 1 + Text.byteLength b.text) a) := by
  have htext := hs.rest
  rw [Lexeme.length_sign] at htext
  obtain ⟨a, hread⟩ := h s (q + 1) s.budget rest [] [] q hbudget hbudget.le htext hrest
  refine ⟨a, ?_⟩
  simp [Grammar.template, templateOf, repeating_apply, hs.start, hread, Body.template,
    Nat.add_assoc]

theorem Expression.isChained_template {body : Body} (hbody : body.IsRead false depth) :
    (Expression.template body).IsChained depth := by
  intro s p rest hbudget hs hrest
  rw [core_template, List.length_cons] at hbudget
  obtain ⟨a, hread⟩ := hbody.template_apply (by omega) hs hrest.scans
  rw [Nat.add_assoc, ← length_template] at hread
  apply chained_of_primary hs hrest rfl (a := a)
  rw [primary_template _ hs, map_apply, hread]
  rfl

theorem Expression.isChained_tagged {tag : Expression} {body : Body} (htag : tag.IsChained depth)
    (hbody : body.IsRead true depth) : (tagged tag body).IsChained depth := by
  intro s p rest hbudget hs hrest
  have hlength : (tagged tag body).core.length =
      tag.core.length + tag.after.text.length + 1 + body.text.length := by
    simp [core_tagged, Nat.add_assoc, Nat.add_comm 1]
  have htail : (tagged tag body).tail ++ rest =
      tag.tail ++ (tag.after.text ++ Sign.backquote.char :: (body.text ++ rest)) := by
    simp [tail]
  rw [htail] at hs
  have hquote : Follower (tag.after.text ++ Sign.backquote.char :: (body.text ++ rest)) :=
    follower_sign tag.after (by decide) fun _ _ => rfl
  have hchained := htag (by omega) hs hquote
  refine hchained.next (by omega) (by omega) (by rfl) fun a => ?_
  have hopen : Holds (s.behind (tag.after.text ++ Sign.backquote.char :: (body.text ++ rest))
      (p + tag.length) a) _ _ _ := holds_sign tag.after fun _ _ => rfl
  obtain ⟨a', hread⟩ := hbody.template_apply (by rw [State.budget_behind]; omega) hopen hrest.scans
  rw [link?_tagged _ _ _ (tag.isOperand_node p) hopen hread, length_tagged, tag.start_node]
  exact ⟨a', by simp [node, Body.template, Nat.add_assoc]⟩

theorem Expression.isChained_member {object : Expression} {g : Spacing} {name : Name}
    (hobject : object.IsChained depth) : (member object g name).IsChained depth := by
  intro s p rest hbudget hs hrest
  have hlength : (member object g name).core.length =
      object.core.length + object.after.text.length + 1 + g.text.length + name.chars.length := by
    simp [core_member, Nat.add_assoc]
    omega
  have htail : (member object g name).tail ++ rest =
      object.tail ++ (object.after.text ++ Sign.dot.char :: (g.text ++ (name.chars ++ rest))) := by
    simp [tail]
  rw [htail] at hs
  have hname : (Lexeme.name name).Ends rest := ends_name name hrest.breaks
  have hends : (Lexeme.sign .dot).Ends (g.text ++ (name.chars ++ rest)) := ends_dot g name rest
  have hdot : Follower (object.after.text ++ Sign.dot.char :: (g.text ++ (name.chars ++ rest))) :=
    follower_sign object.after (by decide) hends
  have hchained := hobject (by omega) hs hdot
  refine hchained.next (by omega) (by omega) (by rfl) fun a => ?_
  have hopen : Holds (s.behind (object.after.text ++
      Sign.dot.char :: (g.text ++ (name.chars ++ rest))) (p + object.length) a) _ _ _ :=
    holds_sign object.after hends
  rw [link?_member _ _ _ (object.isOperand_node p) hopen hname hrest.scans, length_member]
  exact ⟨a, by simp [node, Nat.add_assoc]⟩

theorem Expression.isChained_call {callee : Expression} {given : Arguments}
    (hcallee : callee.IsChained depth) (hgiven : given.IsRead depth) :
    (Expression.call callee given).IsChained depth := by
  intro s p rest hbudget hs hrest
  have hlength : (Expression.call callee given).core.length =
      callee.core.length + callee.after.text.length + 1 + given.text.length := by
    simp [core_call, Nat.add_assoc, Nat.add_comm 1]
  have htail : (Expression.call callee given).tail ++ rest =
      callee.tail ++ (callee.after.text ++ Sign.openParen.char :: (given.text ++ rest)) := by
    simp [tail]
  rw [htail] at hs
  have hparen : Follower (callee.after.text ++ Sign.openParen.char :: (given.text ++ rest)) :=
    follower_sign callee.after (by decide) fun _ _ => rfl
  have hchained := hcallee (by omega) hs hparen
  have hopen : ∀ a, Holds (s.behind (callee.after.text ++ Sign.openParen.char ::
      (given.text ++ rest)) (p + callee.length) a) _ _ _ :=
    fun a => holds_sign callee.after fun _ _ => rfl
  refine hchained.call hs (fun a => ⟨_, _, hopen a⟩) (by omega) (by omega) fun a => ?_
  obtain ⟨a', hread⟩ := hgiven.arguments_apply (by rw [State.budget_behind]; omega) (hopen a)
    hrest.scans
  rw [hread, length_call]
  exact ⟨a', by simp [Nat.add_assoc]⟩

/-- Spacing around an expression belongs to the text in front of it and behind. -/
theorem Expression.isChained_spaced {inside : Expression} (h : inside.IsChained depth)
    (g g' : Spacing) : (Expression.spaced g inside g').IsChained depth :=
  fun _ _ _ hbudget hs hrest => h hbudget hs hrest

end

mutual

theorem Expression.isChained : (e : Expression) → {depth : Nat} → e.IsReadable →
    e.core.length ≤ depth → e.IsChained depth
  | .named v, depth, _, _ => fun s p rest _ hs hrest => by
    have hheld : Holds s (.name v.toName) p rest := hs
    refine chained_of_primary hs hrest rfl (a := s.arrowStart) ?_
    rw [Expression.length_named]
    exact primary_name _ hheld hrest
  | .quoted text, depth, _, _ => fun s p rest _ hs hrest => by
    have hheld : Holds s (.quoted text) p rest := hs
    refine chained_of_primary hs hrest rfl (a := s.arrowStart) ?_
    rw [Expression.length_quoted]
    exact primary_quoted _ hheld hrest.scans
  | .template body, depth, hreadable, hdepth => by
    rw [Expression.core_template, List.length_cons] at hdepth
    exact Expression.isChained_template (body.isRead hreadable (by omega))
  | .tagged tag body, depth, ⟨htag, hbody⟩, hdepth => by
    simp only [Expression.core_tagged, List.length_append, List.length_cons] at hdepth
    exact Expression.isChained_tagged (tag.isChained htag (by omega))
      (body.isRead hbody (by omega))
  | .member object g name, depth, hobject, hdepth => by
    simp only [Expression.core_member, List.length_append] at hdepth
    exact Expression.isChained_member (object.isChained hobject (by omega))
  | .call callee given, depth, ⟨hcallee, hgiven⟩, hdepth => by
    simp only [Expression.core_call, List.length_append, List.length_cons] at hdepth
    exact Expression.isChained_call (callee.isChained hcallee (by omega))
      (given.isRead hgiven (by omega))
  | .spaced g inside g', depth, hinside, hdepth =>
    Expression.isChained_spaced (inside.isChained hinside hdepth) g g'

theorem Body.isRead : (b : Body) → {isTagged : Bool} → {depth : Nat} → b.IsReadable isTagged →
    b.text.length ≤ depth → b.IsRead isTagged depth
  | .last raw, _, _, hreadable, _ => Body.isRead_last hreadable
  | .hole raw inside b, isTagged, depth, ⟨hraw, hinside, hb⟩, hdepth => by
    have hlength := inside.length_core_le
    simp only [Body.text_hole, List.length_append, List.length_cons, TemplateEnd.delimiter,
      List.length_nil] at hdepth
    obtain ⟨depth, rfl⟩ : ∃ d, depth = d + 2 := ⟨depth - 2, by omega⟩
    exact Body.isRead_hole hraw (inside.isChained hinside (by omega)) (b.isRead hb (by omega))

theorem Arguments.isRead : (given : Arguments) → {depth : Nat} → given.IsReadable →
    given.text.length ≤ depth → given.IsRead depth
  | .closed g, _, _, _ => Arguments.isRead_closed g
  | .last inside, depth, hinside, hdepth => by
    have hlength := inside.length_core_le
    simp only [Arguments.text_last, List.length_append, List.length_singleton] at hdepth
    obtain ⟨depth, rfl⟩ : ∃ d, depth = d + 1 := ⟨depth - 1, by omega⟩
    exact Arguments.isRead_last (inside.isChained hinside (by omega))
  | .more inside given, depth, ⟨hinside, hgiven⟩, hdepth => by
    have hlength := inside.length_core_le
    simp only [Arguments.text_more, List.length_append, List.length_cons] at hdepth
    obtain ⟨depth, rfl⟩ : ∃ d, depth = d + 1 := ⟨depth - 1, by omega⟩
    exact Arguments.isRead_more (inside.isChained hinside (by omega))
      (given.isRead hgiven (by omega))

end

end Outdent.Written
