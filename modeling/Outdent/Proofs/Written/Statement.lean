import Outdent.Proofs.Written.Reading
import Outdent.Proofs.Written.Script
/-! # Reading written statements

A statement that is spelled out is read as the tree it stands for, up to where it ends in front of
what comes next. -/
namespace Outdent.Syntax

theorem Grammar.decorators_apply (g : Grammar) {s : State} (h : s.token.isMark .at = false) :
    Grammar.decorators g s = (.ok [], s) := by
  rw [Grammar.decorators, Reader.collect_apply, Reader.map_apply,
    Reader.iterate_of_none (Reader.collectStep_apply (x := none) (by simp [h]) [])]
  rfl

end Outdent.Syntax

namespace Outdent.Written

open Syntax Reader Grammar

theorem Item.text_append (i : Item) (rest : List Char) : i.text ++ rest =
    (i.space ++ i.content.before).text ++ (i.content.first.chars ++ (i.content.tail ++
      (i.content.after.text ++ (i.closing ++ rest)))) := by
  simp [Item.text, Statement.text, Statement.core]

/-- The text behind an item, from the last lexeme that the item is read with. -/
def Item.behind (i : Item) (rest : List Char) : List Char :=
  if i.isClosed then rest else i.content.after.text ++ rest

/-- An item ends in front of a text. -/
structure Stops (i : Item) (rest : List Char) : Prop where
  closer : Closer (i.content.after.text ++ (i.closing ++ rest))
  noComma : ∀ q, (Scan.ofInput q ⟨i.content.after.text ++ (i.closing ++ rest), q⟩).token.isMark
    .comma = false
  takeStop_apply : ∀ (s : State) (q : Nat) (a : Option Nat),
    takeStop (s.behind (i.content.after.text ++ (i.closing ++ rest)) q a) =
      (.ok true, s.behind (i.behind rest) (q + i.closingLength) a)

theorem Stops.ends {i : Item} {rest : List Char} (h : Stops i rest) (s : State) (q : Nat)
    (a : Option Nat) :
    (s.behind (i.content.after.text ++ (i.closing ++ rest)) q a).token.endsOperand = true :=
  h.closer.ends q

theorem stops_of_isClosed {i : Item} (hi : i.isClosed = true) {rest : List Char}
    (hrest : Scans rest) : Stops i rest := by
  have hclosing : i.closing = [Sign.semicolon.char] := by simp [Item.closing, hi]
  have htext : i.content.after.text ++ (i.closing ++ rest) =
      i.content.after.text ++ Sign.semicolon.char :: rest := by simp [hclosing]
  constructor
  · rw [htext]
    exact closer_sign _ .semicolon (by decide) rest
  · intro q
    rw [htext]
    exact isMark_sign _ (fun _ _ => rfl) .comma q
  · intro s q a
    rw [htext]
    have hheld : Holds (s.behind (i.content.after.text ++ Sign.semicolon.char :: rest) q a) _ _ _ :=
      holds_sign i.content.after fun _ _ => rfl
    have htake : take .semicolon _ = _ := take_apply_of_holds hheld hrest
    simp [takeStop, htake, Item.behind, Item.closingLength, hi, Nat.add_assoc]

def startsLineToken (t : Token) : Bool :=
  t.kind == .endOfText ||
    t.afterNewline &&
      [.word .other, .word .importWord, .word .constWord, .string].contains t.kind

theorem endsOperand_of_startsLineToken {t : Token} (h : startsLineToken t = true) :
    t.endsOperand = true := by
  simp only [startsLineToken, Bool.or_eq_true] at h
  simp only [Token.endsOperand, Bool.or_eq_true]
  exact h.imp (fun h => by simpa using Or.inr (Or.inr (Or.inr (Or.inr (beq_iff_eq.mp h))))) id

theorem isMark_of_startsLineToken {t : Token} (h : startsLineToken t = true) (m : Mark) :
    t.isMark m = false := by
  by_contra hne
  simp only [Token.isMark, Bool.not_eq_false, beq_iff_eq] at hne
  simp [startsLineToken, hne] at h

theorem stops_of_startsLine {i : Item} (hi : i.isClosed = false) {rest : List Char}
    (hrest : Follower (i.content.after.text ++ rest))
    (h : ∀ q, startsLineToken (Scan.ofInput q ⟨i.content.after.text ++ rest, q⟩).token = true) :
    Stops i rest := by
  have htext : i.content.after.text ++ (i.closing ++ rest) = i.content.after.text ++ rest := by
    simp [Item.closing, hi]
  constructor
  · rw [htext]
    exact ⟨hrest, fun q => endsOperand_of_startsLineToken (h q)⟩
  · intro q
    rw [htext]
    exact isMark_of_startsLineToken (h q) .comma
  · intro s q a
    rw [htext]
    have htoken : startsLineToken (s.behind (i.content.after.text ++ rest) q a).token = true := h q
    have htake := take_of_not_isMark (isMark_of_startsLineToken htoken .semicolon)
    have hstop : ((s.behind (i.content.after.text ++ rest) q a).token.kind == .endOfText ||
        (s.behind (i.content.after.text ++ rest) q a).token.afterNewline) = true := by
      simp only [startsLineToken, Bool.or_eq_true, Bool.and_eq_true] at htoken ⊢
      exact htoken.imp id And.left
    simp [takeStop, htake, onStop, isMark_of_startsLineToken htoken, hstop, Item.behind,
      Item.closingLength, hi]

theorem Expression.ofName_node : (e : Expression) → (p : Nat) → ∀ name ∈ (e.node p).name?,
    Word.ofName name = .other
  | .named v, _, name, h => by
    obtain rfl : v.spelling = name := Option.some.inj h
    exact word_of_variable v
  | .spaced _ inside _, p, name, h => inside.ofName_node p name h

mutual

theorem Expression.misplacedDefault?_node : (e : Expression) →
    ∀ p, misplacedDefault? (e.node p) = none
  | .named _ => fun _ => rfl
  | .quoted _ => fun _ => rfl
  | .template body => fun p => by
    simp [Expression.node, misplacedDefault?, body.misplacedDefault?_holes]
  | .tagged tag body => fun p => by
    simp [Expression.node, misplacedDefault?, tag.misplacedDefault?_node,
      body.misplacedDefault?_holes]
  | .member object _ _ => fun p => by
    simp [Expression.node, misplacedDefault?, firstMisplacedDefault?,
      object.misplacedDefault?_node]
  | .call callee given => fun p => by
    simp [Expression.node, misplacedDefault?, firstMisplacedDefault?,
      callee.misplacedDefault?_node, given.misplacedDefault?_nodes]
  | .spaced _ inside _ => fun p => inside.misplacedDefault?_node p

theorem Body.misplacedDefault?_holes : (b : Body) →
    ∀ q, firstMisplacedDefault? (b.holes q) = none
  | .last _ => fun _ => rfl
  | .hole _ inside rest => fun q => by
    simp [Body.holes, firstMisplacedDefault?, inside.misplacedDefault?_node,
      rest.misplacedDefault?_holes]

theorem Arguments.misplacedDefault?_nodes : (given : Arguments) →
    ∀ q, firstMisplacedDefault? (given.nodes q) = none
  | .closed _ => fun _ => rfl
  | .last inside => fun q => by
    simp [Arguments.nodes, firstMisplacedDefault?, inside.misplacedDefault?_node]
  | .more inside rest => fun q => by
    simp [Arguments.nodes, firstMisplacedDefault?, inside.misplacedDefault?_node,
      rest.misplacedDefault?_nodes]

end

section
variable {s : State} {p depth : Nat} {rest : List Char} {i : Item}

theorem endExpression_apply (g : Grammar) (h : Stops i rest) (s : State) (q : Nat)
    (a : Option Nat) (start : Nat) (found : Node) : endExpression g start found
        (s.behind (i.content.after.text ++ (i.closing ++ rest)) q a) =
      (.ok (.other .statement ⟨start, q + i.closingLength⟩ [found]),
        s.behind (i.behind rest) (q + i.closingLength) a) := by
  simp [endExpression, h.takeStop_apply]

theorem plainStatement_apply {e : Expression} (he : e.IsChained depth) (hi : i.content = .plain e)
    (hbudget : e.core.length < s.budget)
    (hs : Holds s e.first p (e.tail ++ (i.content.after.text ++ (i.closing ++ rest))))
    (h : Stops i rest) : ∃ a, plainStatement (ofDepth (depth + 2)) [] s =
      (.ok (i.content.node p i.closingLength),
        s.behind (i.behind rest) (p + e.length + i.closingLength) a) := by
  have hjoined : Holds { s with context := { s.context with inJoins := true } } e.first p
      (e.tail ++ (i.content.after.text ++ (i.closing ++ rest))) := hs.congr rfl rfl
  obtain ⟨a, hread⟩ := he.expression_apply (by exact hbudget) hjoined h.closer h.noComma
  have hread : within ({ · with inJoins := true }) (ofDepth (depth + 2) .expression) s = _ :=
    within_apply hread
  have hend := endExpression_apply (ofDepth (depth + 2)) h s (p + e.length) a s.token.start
    (e.node p)
  refine ⟨a, ?_⟩
  have hnode : i.content.node p i.closingLength =
      .other .statement ⟨p, p + e.length + i.closingLength⟩ [e.node p] := by rw [hi]; rfl
  rw [hnode]
  rw [hs.start] at hend
  simp only [plainStatement, bind_apply, here_apply, hs.start, hread]
  have hdefault := e.misplacedDefault?_node p
  have hname := e.ofName_node p
  cases hn : e.node p with
  | identifier r name =>
    rw [hn] at hname hend
    have hcolon := take_of_not_isMark (Token.isMark_of_endsOperand (h.ends s (p + e.length) a)
      (m := .colon) rfl)
    have hword : Word.ofName name = .other := hname name rfl
    have hstart : r.start = p := by
      rw [← e.start_node p, hn]
      rfl
    simp [hcolon, wordStatement, hword, typeDeclaration?, Node.start, Node.range, hstart, hend]
  | _ =>
    rw [hn] at hend hdefault
    simp [checkNoDefaults, hdefault, hend]

/-- An expression that is a statement by itself is no other statement. -/
theorem moduleItem_plain {e : Expression} (he : e.IsChained depth) (hi : i.content = .plain e)
    (hbudget : e.core.length < s.budget)
    (hs : Holds s e.first p (e.tail ++ (i.content.after.text ++ (i.closing ++ rest))))
    (h : Stops i rest) : ∃ a, moduleItem (ofDepth (depth + 2)) s =
      (.ok (i.content.node p i.closingLength),
        s.behind (i.behind rest) (p + e.length + i.closingLength) a) := by
  have hopens := opensOperand_of_holds hs
  have hmarks := decorators_apply (ofDepth (depth + 2)) (s := s)
    (Token.isMark_of_opensOperand hopens (by simp))
  have hopened : opened? (ofDepth (depth + 2)) true [] s.token s = (.ok none, s) := by
    have hkind : s.token.kind = .word .other ∨ s.token.kind = .string ∨
        s.token.kind = .mark .backquote := by simpa [Token.opensOperand] using hopens
    rcases hkind with hk | hk | hk <;> simp [opened?, hk]
  obtain ⟨a, hread⟩ := plainStatement_apply he hi hbudget hs h
  exact ⟨a, by simp [moduleItem, hmarks, Token.isWord_of_opensOperand hopens, statement, hopened,
    hread]⟩

theorem kind_ahead {l l' : Lexeme} {g : Spacing} (hs : Holds s l p (g.text ++ (l'.chars ++ rest)))
    (h : l'.Ends rest) : (Scan.ofInput s.token.stop s.rest).token.kind = l'.kind := by
  rw [hs.rest, scan_lexeme g l' h]

theorem binding_apply {v : Variable} (hs : Holds s (.name v.toName) p rest) (hrest : Scans rest) :
    binding s = (.ok (.identifier ⟨p, p + Text.byteLength v.chars⟩ v.spelling),
      s.behind rest (p + Text.byteLength v.chars) s.arrowStart) := by
  have hname : v.spelling ≠ "yield" := by
    intro heq
    have hword := word_of_variable v
    rw [Name.word, heq] at hword
    exact absurd hword (by decide)
  simp [binding, identifier_apply hs hrest, Node.name?, not_isBarredTarget, hname]

theorem ends_assign (e : Expression) (rest : List Char) :
    (Lexeme.sign .assign).Ends (e.text ++ rest) := by
  rw [e.text_append]
  refine forall_head_spacing e.before (fun c hc _ => ?_) fun c hc => ?_
  · by_contra hne
    simp only [Lexeme.endsBefore, Bool.and_eq_true, bne_iff_ne, not_and_or, not_not] at hne
    rcases hne with rfl | rfl <;> exact absurd hc (by decide)
  · obtain ⟨d, cs, hchars, -⟩ := exists_first e.first
    rw [hchars] at hc
    obtain rfl : d = c := Option.some.inj hc
    have hfirst : d ∈ e.first.chars.head? := by rw [hchars]; rfl
    rcases head_lexeme hfirst with hstart | rfl | rfl | ⟨s, hs, rfl⟩
    · by_contra hne
      simp only [Lexeme.endsBefore, Bool.and_eq_true, bne_iff_ne, not_and_or, not_not] at hne
      rcases hne with rfl | rfl <;> exact absurd hstart (by decide)
    · rfl
    · rfl
    · have hkind := e.kind_first
      rw [hs] at hkind
      cases s <;> first | rfl | simp [Lexeme.kind, Sign.mark] at hkind

theorem declarator_apply {v : Variable} {g : Spacing} {value : Expression}
    (hvalue : value.IsChained depth) (hbudget : value.core.length < s.budget)
    (hs : Holds s (.name v.toName) p (g.text ++ Sign.assign.char :: (value.text ++ rest)))
    (hrest : Closer (value.after.text ++ rest)) :
    let r := p + Text.byteLength v.chars
    let w := r + Text.byteLength g.text + 1 + Text.byteLength value.before.text
    ∃ a, declarator (ofDepth (depth + 1)) .constant false s =
      (.ok (.other .declarator ⟨p, w + value.length⟩ [.identifier ⟨p, r⟩ v.spelling, value.node w]),
        s.behind (value.after.text ++ rest) (w + value.length) a) := by
  have hassign := ends_assign value rest
  have hkind : s.token.kind = .word .other :=
    hs.kind.trans (by rw [Lexeme.kind, word_of_variable])
  have hbinding := binding_apply hs (scans_lexeme g (l := .sign .assign) hassign)
  have hheld : Holds (s.behind (g.text ++ Sign.assign.char :: (value.text ++ rest))
      (p + Text.byteLength v.chars) s.arrowStart) _ _ _ := holds_sign g hassign
  have htake : take .assign _ = _ := take_apply_of_holds hheld (scans_text hrest.toFollower)
  have hskip : ∀ m, Mark.assign ≠ m → take m _ = _ := fun m hm =>
    take_of_not_isMark (by rwa [isMark_of_holds hheld, Sign.mark, beq_eq_false_iff_ne])
  obtain ⟨a, hread⟩ := hvalue.assignment_apply (s := s.behind (value.text ++ rest)
      (p + Text.byteLength v.chars + Text.byteLength g.text + 1) s.arrowStart)
    hbudget (holds_first hrest.toFollower) hrest
  exact ⟨a, by simp [declarator, bindingPattern, Token.isWord, Token.isName, Token.word?, hkind,
    hbinding, Node.name?, optionalAnnotation, hskip, htake, hread, checkNoDefaults,
    value.misplacedDefault?_node, hs.start]⟩

theorem declarators_apply {v : Variable} {g : Spacing} {value : Expression}
    (hvalue : value.IsChained depth) (hbudget : value.core.length < s.budget)
    (hs : Holds s (.name v.toName) p (g.text ++ Sign.assign.char :: (value.text ++ rest)))
    (hrest : Closer (value.after.text ++ rest))
    (hcomma : ∀ q, (Scan.ofInput q ⟨value.after.text ++ rest, q⟩).token.isMark .comma = false)
    (wordStart wordStop : Nat) :
    let r := p + Text.byteLength v.chars
    let w := r + Text.byteLength g.text + 1 + Text.byteLength value.before.text
    ∃ a, declarators (ofDepth (depth + 1)) .constant false wordStart wordStop s =
      (.ok [.other .declarator ⟨p, w + value.length⟩
          [.identifier ⟨p, r⟩ v.spelling, value.node w]],
        s.behind (value.after.text ++ rest) (w + value.length) a) := by
  intro r w
  obtain ⟨a, hread⟩ := declarator_apply hvalue hbudget hs hrest
  obtain ⟨k, hk⟩ : ∃ k, s.budget = k + 1 := ⟨s.budget - 1, by omega⟩
  have hkind : s.token.kind = .word .other :=
    hs.kind.trans (by rw [Lexeme.kind, word_of_variable])
  have htake : ∀ q, take .comma (s.behind (value.after.text ++ rest) q a) = _ :=
    fun q => take_of_not_isMark (hcomma q)
  refine ⟨a, ?_⟩
  simp [declarators, repeating_apply, hk, Token.isMark, hkind, hread, htake]
  cases k <;> simp [iterate] <;> exact ⟨⟨rfl, rfl, rfl⟩, rfl⟩

theorem variableDeclaration_apply {g : Parting} {v : Variable} {g' : Spacing} {value : Expression}
    (hvalue : value.IsChained depth) (hbudget : value.core.length < s.budget)
    (hs : Holds s (.name constName) p (g.1.text ++ (v.chars ++
      (g'.text ++ Sign.assign.char :: (value.text ++ rest)))))
    (hrest : Closer (value.after.text ++ rest))
    (hcomma : ∀ q, (Scan.ofInput q ⟨value.after.text ++ rest, q⟩).token.isMark .comma = false) :
    ∃ a, variableDeclaration (ofDepth (depth + 1)) false s =
      (.ok ((Statement.constant g v g' value).node p 0),
        s.behind (value.after.text ++ rest) (p + (Statement.constant g v g' value).length) a) := by
  have hname : (Lexeme.name v.toName).Ends
      (g'.text ++ Sign.assign.char :: (value.text ++ rest)) :=
    ends_name _ (breaks_spacing g' _ (by rintro c hc; obtain rfl := Option.some.inj hc; decide))
  have hadvance := advance_apply hs (scans_lexeme g.1 (l := .name v.toName) hname)
  have hkind : s.token.kind = .word .constWord := hs.kind
  have hheld := holds_behind (s := { s with context := { s.context with inJoins := true } })
    (q := p + (Lexeme.name constName).length) (a := s.arrowStart) g.1 hname
  obtain ⟨a, hread⟩ := declarators_apply hvalue (by exact hbudget) hheld hrest hcomma p s.token.stop
  have hjoined : within (fun c => { c with inJoins := true })
      (declarators (ofDepth (depth + 1)) .constant false p s.token.stop)
      (s.behind (g.1.text ++ (v.chars ++ (g'.text ++ Sign.assign.char :: (value.text ++ rest))))
        (p + (Lexeme.name constName).length) s.arrowStart) = _ := within_apply hread
  have hlength : p + (Statement.constant g v g' value).length = p + (Lexeme.name constName).length +
      Text.byteLength g.1.text + Text.byteLength v.chars + Text.byteLength g'.text + 1 +
        Text.byteLength value.before.text + value.length := by
    simp [Statement.length, Statement.core, Statement.first, Statement.tail, Expression.length,
      Text.byteLength, Nat.add_assoc, Lexeme.length]
  rw [hlength]
  exact ⟨a, by simp [variableDeclaration, Token.word?, hkind, hadvance, hs.start, hjoined,
    Statement.node]⟩

theorem moduleItem_constant {g : Parting} {v : Variable} {g' : Spacing} {value : Expression}
    (hvalue : value.IsChained depth) (hi : i.content = .constant g v g' value)
    (hbudget : value.core.length < s.budget)
    (hs : Holds s (.name constName) p
      (i.content.tail ++ (i.content.after.text ++ (i.closing ++ rest))))
    (h : Stops i rest) : ∃ a, moduleItem (ofDepth (depth + 1)) s =
      (.ok (i.content.node p i.closingLength),
        s.behind (i.behind rest) (p + i.content.length + i.closingLength) a) := by
  have hafter : i.content.after = value.after := by rw [hi]; rfl
  have htail : i.content.tail ++ (i.content.after.text ++ (i.closing ++ rest)) =
      g.1.text ++ (v.chars ++
        (g'.text ++ Sign.assign.char :: (value.text ++ (i.closing ++ rest)))) := by
    rw [hi]
    simp [Statement.tail, Statement.after, Expression.text]
  rw [htail] at hs
  have hcloser := h.closer
  have hcomma := h.noComma
  rw [hafter] at hcloser hcomma
  obtain ⟨a, hread⟩ := variableDeclaration_apply hvalue hbudget hs hcloser hcomma
  have hstop := h.takeStop_apply s (p + i.content.length) a
  rw [hafter, hi] at hstop
  have hname : (Lexeme.name v.toName).Ends
      (g'.text ++ Sign.assign.char :: (value.text ++ (i.closing ++ rest))) :=
    ends_name _ (breaks_spacing g' _ (by rintro c hc; obtain rfl := Option.some.inj hc; decide))
  have hahead : (Scan.ofInput s.token.stop s.rest).token.kind = (Lexeme.name v.toName).kind :=
    kind_ahead hs hname
  have hkind : s.token.kind = .word .constWord := hs.kind
  have hmarks := decorators_apply (ofDepth (depth + 1)) (s := s) (by simp [Token.isMark, hkind])
  refine ⟨a, ?_⟩
  rw [hi]
  simp [moduleItem, hmarks, Token.isWord, hkind, statement, opened?, hahead, Lexeme.kind,
    word_of_variable, variableStatement, hread, hstop]
  rfl

theorem breaks_parting (g : Parting) (rest : List Char) :
    ∀ c ∈ (g.1.text ++ rest).head?, Text.isIdentifierPart c = false ∧ c ≠ '\\' := by
  obtain ⟨g, hg⟩ := g
  cases g with
  | nil => contradiction
  | cons x g =>
    obtain ⟨c, cs, hx, hc, -⟩ := exists_head x
    rw [Spacing.text_cons, hx]
    rintro d hd
    obtain rfl : c = d := Option.some.inj hd
    exact breaks_space hc

theorem ends_name_parting (m : Name) (g : Parting) (rest : List Char) :
    (Lexeme.name m).Ends (g.1.text ++ rest) := ends_name m (breaks_parting g rest)

theorem importOpening_apply {v : Variable} {g : Parting} (start : Nat)
    (hs : Holds s (.name v.toName) p (g.1.text ++ (fromName.chars ++ rest)))
    (hfrom : (Lexeme.name fromName).Ends rest) : importOpening start s =
      (.ok (.bindings (some v.spelling) false),
        s.behind (g.1.text ++ (fromName.chars ++ rest)) (p + Text.byteLength v.chars)
          s.arrowStart) := by
  have hkind : s.token.kind = .word .other :=
    hs.kind.trans (by rw [Lexeme.kind, word_of_variable])
  have hbinding := binding_apply hs (scans_lexeme g.1 hfrom)
  have hheld : Holds (s.behind (g.1.text ++ (fromName.chars ++ rest))
      (p + Text.byteLength v.chars) s.arrowStart) _ _ _ := holds_behind g.1 hfrom
  have hnext : (s.behind (g.1.text ++ (fromName.chars ++ rest))
      (p + Text.byteLength v.chars) s.arrowStart).token.kind = .word .fromWord := hheld.kind
  simp [importOpening, Token.isReference, Token.word?, hkind, Word.isReserved, Word.isKeyword,
    boundName, hbinding, Token.isWord, Token.isMark, hnext, ExchangedName.text, hs.text]
  rfl

theorem takeWord_apply_of_holds {m : Name} (hs : Holds s (.name m) p rest) (hrest : Scans rest) :
    takeWord m.word s =
      (.ok true, s.behind rest (p + Text.byteLength m.chars) s.arrowStart) := by
  have hword : s.token.isWord m.word = true := by simp [Token.isWord, hs.kind, Lexeme.kind]
  simp [takeWord_apply, hword, advance_apply hs hrest, Lexeme.length, Lexeme.chars]

theorem sourceName_apply {source : Quoted} (hs : Holds s (.quoted source) p rest)
    (hrest : Scans rest) : sourceName s = (.ok source.spelling,
      s.behind rest (p + (Lexeme.quoted source).length) s.arrowStart) := by
  have hkind : s.token.kind = .string := hs.kind
  simp [sourceName, hkind, advance_apply hs hrest, hs.text, Lexeme.value, Quoted.spelling]

theorem attributes_apply (g : Grammar) (h : s.token.endsOperand = true) :
    attributes g s = (.ok [], s) := by
  simp [attributes, takeWord_apply, Token.isWord_of_endsOperand h]

/-- An import of a default binding is read up to `from`, and from there on as the other module. -/
theorem importDeclaration_apply {G : Grammar} {g g' : Parting} {v : Variable} {source : String}
    {rest' rest'' : List Char} {n n' : Nat}
    (hs : Holds s (.name importName) p (g.1.text ++ (v.chars ++
      (g'.1.text ++ (fromName.chars ++ rest)))))
    (hfrom : (Lexeme.name fromName).Ends rest) (hrest : Scans rest)
    (hsource : ∀ q a, sourceName (s.behind rest q a) = (.ok source, s.behind rest' (q + n) a))
    (hattributes : ∀ q a, attributes G (s.behind rest' q a) = (.ok [], s.behind rest' q a))
    (hstop : ∀ q a, takeStop (s.behind rest' q a) = (.ok true, s.behind rest'' (q + n') a))
    {q : Nat}
    (hq : p + (Lexeme.name importName).length + Text.byteLength g.1.text +
      Text.byteLength v.chars + Text.byteLength g'.1.text + Text.byteLength fromName.chars + n + n'
        = q) : importDeclaration G s =
      (.ok (.importing ⟨⟨p, q⟩, source, [⟨.byDefault, v.spelling⟩], []⟩),
        s.behind rest'' q s.arrowStart) := by
  have hname := ends_name_parting v.toName g' (fromName.chars ++ rest)
  have hadvance := advance_apply hs (scans_lexeme g.1 (l := .name v.toName) hname)
  have hnamed : Holds (s.behind (g.1.text ++ (v.chars ++ (g'.1.text ++ (fromName.chars ++ rest))))
      (p + (Lexeme.name importName).length) s.arrowStart) (.name v.toName) _ _ :=
    holds_behind g.1 hname
  have hkind := hnamed.kind
  have hopening := importOpening_apply s.token.start hnamed hfrom
  have hheld : Holds (s.behind (g'.1.text ++ (fromName.chars ++ rest))
      (p + (Lexeme.name importName).length + Text.byteLength g.1.text + Text.byteLength v.chars)
      s.arrowStart) (.name fromName) _ _ := holds_behind g'.1 hfrom
  have htake : takeWord .fromWord _ = _ := takeWord_apply_of_holds hheld hrest
  have hcomma : take .comma (s.behind (g'.1.text ++ (fromName.chars ++ rest))
      (p + (Lexeme.name importName).length + Text.byteLength g.1.text + Text.byteLength v.chars)
      s.arrowStart) = _ :=
    take_of_not_isMark (by simp [Token.isMark, hheld.kind, Lexeme.kind])
  rw [hs.start] at hopening
  simp [importDeclaration, hs.start, hadvance, hkind, Lexeme.kind, hopening, hcomma, needWord,
    htake, hsource, hattributes, needStop, hstop, hq]

theorem moduleItem_imported {g g' : Parting} {v : Variable} {g'' : Spacing} {source : Quoted}
    (G : Grammar) (hi : i.content = .imported g v g' g'' source)
    (hs : Holds s (.name importName) p
      (i.content.tail ++ (i.content.after.text ++ (i.closing ++ rest))))
    (h : Stops i rest) : moduleItem G s =
      (.ok (i.content.node p i.closingLength),
        s.behind (i.behind rest) (p + i.content.length + i.closingLength) s.arrowStart) := by
  have hafter : i.content.after.text ++ (i.closing ++ rest) = i.closing ++ rest := by
    rw [hi]
    rfl
  have hcloser := h.closer
  have hstop := h.takeStop_apply s
  rw [hafter] at hcloser hstop
  have htail : i.content.tail ++ (i.content.after.text ++ (i.closing ++ rest)) =
      g.1.text ++ (v.chars ++ (g'.1.text ++ (fromName.chars ++
      (g''.text ++ ((Lexeme.quoted source).chars ++ (i.closing ++ rest)))))) := by
    rw [hafter, hi]
    simp [Statement.tail]
  rw [htail] at hs
  have hquoted : (Lexeme.quoted source).Ends (i.closing ++ rest) := fun _ _ => rfl
  have hfrom : (Lexeme.name fromName).Ends
      (g''.text ++ ((Lexeme.quoted source).chars ++ (i.closing ++ rest))) := by
    refine ends_name fromName (breaks_spacing g'' _ ?_)
    rintro c hc
    obtain rfl : source.quote = c := Option.some.inj hc
    have hquote := source.isQuote
    simp only [Bool.or_eq_true, beq_iff_eq] at hquote
    rcases hquote with hquote | hquote <;> rw [hquote] <;> decide
  have hsource : ∀ q a, sourceName (s.behind
      (g''.text ++ ((Lexeme.quoted source).chars ++ (i.closing ++ rest))) q a) =
        (.ok source.spelling, s.behind (i.closing ++ rest)
          (q + (Text.byteLength g''.text + (Lexeme.quoted source).length)) a) := by
    intro q a
    rw [sourceName_apply (holds_behind g'' hquoted) hcloser.scans, ← Nat.add_assoc]
    rfl
  have hstopped : p + (Lexeme.name importName).length +
      Text.byteLength g.1.text + Text.byteLength v.chars + Text.byteLength g'.1.text +
        Text.byteLength fromName.chars +
          (Text.byteLength g''.text + (Lexeme.quoted source).length) + i.closingLength =
      p + i.content.length + i.closingLength := by
    rw [hi]
    simp [Statement.length, Statement.core, Statement.first, Statement.tail, Nat.add_assoc,
      Lexeme.length]
  have hread := importDeclaration_apply (G := G) hs hfrom (scans_lexeme g'' hquoted) hsource
    (fun q a => attributes_apply G (hcloser.ends q)) hstop hstopped
  have hahead : (Scan.ofInput s.token.stop s.rest).token.kind = (Lexeme.name v.toName).kind :=
    kind_ahead hs (ends_name_parting v.toName g' _)
  have hkind : s.token.kind = .word .importWord := hs.kind
  have hmarks := decorators_apply G (s := s) (by simp [Token.isMark, hkind])
  have hnode : i.content.node p i.closingLength = .importing
      ⟨⟨p, p + i.content.length + i.closingLength⟩, source.spelling, [⟨.byDefault, v.spelling⟩],
        []⟩ := by
    rw [hi]
    rfl
  rw [hnode]
  simp [moduleItem, hmarks, Token.isWord, hkind, Token.isMark, hahead, Lexeme.kind, hread]

theorem moduleItem_apply (hreadable : i.content.IsReadable) (hdepth : i.content.core.length ≤ depth)
    (hbudget : i.content.core.length < s.budget) (hs : Holds s i.content.first p
      (i.content.tail ++ (i.content.after.text ++ (i.closing ++ rest)))) (h : Stops i rest) :
    ∃ a, ofDepth (depth + 3) .moduleItem s = (.ok (i.content.node p i.closingLength),
      s.behind (i.behind rest) (p + i.content.length + i.closingLength) a) := by
  cases hi : i.content with
  | imported g v g' g'' source =>
    have hfirst : i.content.first = .name importName := by rw [hi]; rfl
    rw [hfirst] at hs
    rw [← hi]
    exact ⟨_, moduleItem_imported _ hi hs h⟩
  | constant g v g' value =>
    have hfirst : i.content.first = .name constName := by rw [hi]; rfl
    have hlonger : value.core.length ≤ i.content.core.length := by
      rw [hi]
      simp [Statement.core, Statement.tail]
      omega
    have hvalue : value.IsReadable := by
      rw [hi] at hreadable
      exact hreadable
    rw [hfirst] at hs
    rw [← hi]
    exact moduleItem_constant (value.isChained hvalue (by omega)) hi (by omega) hs h
  | plain e =>
    have hcore : i.content.core = e.core := by rw [hi]; rfl
    have hlength : i.content.length = e.length := by rw [hi]; rfl
    have hheld : Holds s e.first p (e.tail ++ (i.content.after.text ++ (i.closing ++ rest))) := by
      rw [hi] at hs ⊢
      exact hs
    rw [hcore] at hdepth hbudget
    have he : e.IsReadable := by
      rw [hi] at hreadable
      exact hreadable
    rw [← hi, hlength]
    exact moduleItem_plain (e.isChained he (by omega)) hi hbudget hheld h

end

end Outdent.Written
