import Outdent.Proofs.Written.Expression
import Outdent.Proofs.Written.Hand
import Outdent.Syntax.Grammar.Statement
/-! # Reading written operands

From the first lexeme of an expression a reader goes over all that belongs to it and stops at the
token behind it. -/
namespace Outdent.Syntax

namespace Token

def opensOperand (t : Token) : Bool :=
  [.word .other, .string, .mark .backquote].contains t.kind

/-- Whether no operand goes on with a token: one that closes or parts, or one that starts a
statement on a new line. -/
def endsOperand (t : Token) : Bool :=
  [.mark .semicolon, .mark .comma, .mark .closeParen, .mark .closeBrace,
      .endOfText].contains t.kind ||
    t.afterNewline &&
      [.word .other, .word .importWord, .word .constWord, .string].contains t.kind

/-- Whether an operand ends in front of a token, or goes on with a template, a member or a call. -/
def followsOperand (t : Token) : Bool :=
  t.endsOperand || [.mark .backquote, .mark .dot, .mark .openParen].contains t.kind

variable {t : Token}

theorem isMark_of_opensOperand (h : t.opensOperand = true) {m : Mark} (hm : m ≠ .backquote) :
    t.isMark m = false := by
  simp only [opensOperand, List.contains_iff_mem, List.mem_cons, List.not_mem_nil, or_false] at h
  rcases h with h | h | h <;> simp [isMark, h, Ne.symm hm]

theorem isWord_of_opensOperand (h : t.opensOperand = true) {w : Word} (hw : w ≠ .other) :
    t.isWord w = false := by
  simp only [opensOperand, List.contains_iff_mem, List.mem_cons, List.not_mem_nil, or_false] at h
  rcases h with h | h | h <;> simp [isWord, h, Ne.symm hw]

theorem isMark_of_endsOperand (h : t.endsOperand = true) {m : Mark}
    (hm : [Mark.semicolon, .comma, .closeParen, .closeBrace].contains m = false) :
    t.isMark m = false := by
  by_contra hne
  simp only [isMark, Bool.not_eq_false, beq_iff_eq] at hne
  simp_all [endsOperand]

theorem isMark_of_followsOperand (h : t.followsOperand = true) {m : Mark}
    (hm : [Mark.semicolon, .comma, .closeParen, .closeBrace, .backquote, .dot,
      .openParen].contains m = false) : t.isMark m = false := by
  by_contra hne
  simp only [isMark, Bool.not_eq_false, beq_iff_eq] at hne
  simp_all [followsOperand, endsOperand]

theorem isWord_of_endsOperand (h : t.endsOperand = true) {w : Word}
    (hw : [Word.other, .importWord, .constWord].contains w = false) : t.isWord w = false := by
  by_contra hne
  simp only [isWord, Bool.not_eq_false, beq_iff_eq] at hne
  simp_all [endsOperand]

theorem mark?_any_eq_false {ms : List Mark} (h : ∀ m ∈ ms, t.isMark m = false) :
    t.mark?.any ms.contains = false := by
  cases hk : t.kind with
  | mark m =>
    have hm : m ∉ ms := fun hm => by simpa [isMark, hk] using h m hm
    simp [mark?, hk, hm]
  | _ => simp [mark?, hk]

end Token

def Node.isOperand (n : Node) : Bool :=
  [none, some Kind.literal, some .member, some .call].contains n.kind?

theorem Node.hasKind_of_isOperand {n : Node} (h : n.isOperand = true) {k : Kind}
    (hk : [Kind.literal, .member, .call].contains k = false) : n.hasKind k = false := by
  by_contra hne
  simp only [hasKind, Bool.not_eq_false, beq_iff_eq] at hne
  simp_all [isOperand]

theorem Grammar.isOptionalChain_of_isOperand {n : Node} (h : n.isOperand = true) :
    Grammar.isOptionalChain n = false := by
  unfold Grammar.isOptionalChain
  split
  · simp [Node.isOperand, Node.kind?] at h
  · simp [Node.isOperand, Node.kind?] at h
  · rfl

end Outdent.Syntax

namespace Outdent.Written

open Syntax Reader Grammar

section
variable {s : State}

theorem onTypeArguments_apply (ht : s.token.followsOperand = true) :
    onTypeArguments s = (.ok false, s) := by
  have hany : s.token.mark?.any [Mark.less, .shiftLeft].contains = false :=
    Token.mark?_any_eq_false (by simp [Token.isMark_of_followsOperand ht])
  simp only [onTypeArguments, onAny_apply, hany]

theorem take_of_not_isMark {m : Mark} (h : s.token.isMark m = false) :
    take m s = (.ok false, s) := by
  simp [take_apply, h]

theorem link?_of_endsOperand (g : Grammar) (calls : Bool) (start : Nat) {n : Node}
    (hn : n.isOperand = true) (ht : s.token.endsOperand = true) :
    link? g { calls } start n s = (.ok none, s) := by
  have hfollows : s.token.followsOperand = true := by simp [Token.followsOperand, ht]
  simp [link?, memberOrCall?, take_of_not_isMark, onTypeArguments_apply hfollows,
    Token.isMark_of_endsOperand ht, Node.hasKind_of_isOperand hn]

end

/-- Text in front of which an operand ends, or that goes on with it. -/
structure Follower (rest : List Char) : Prop where
  breaks : ∀ c ∈ rest.head?, Text.isIdentifierPart c = false ∧ c ≠ '\\'
  scans : Scans rest
  follows : ∀ q, (Scan.ofInput q ⟨rest, q⟩).token.followsOperand = true

theorem Follower.behind {rest : List Char} (h : Follower rest) (s : State) (q : Nat)
    (a : Option Nat) : (s.behind rest q a).token.followsOperand = true := h.follows q

theorem word_of_variable (v : Variable) : v.word = .other := by
  have h := v.isFree
  simp only [Bool.and_eq_true, beq_iff_eq] at h
  exact h.1

theorem not_isBarredTarget (v : Variable) : isBarredTarget v.spelling = false := by
  have h := v.isFree
  simp only [Bool.and_eq_true, Bool.not_eq_true'] at h
  exact h.2

theorem identifier_apply {v : Variable} {s : State} {p : Nat} {rest : List Char}
    (h : Holds s (.name v.toName) p rest) (hrest : Scans rest) (yieldReads : Bool) :
    identifier yieldReads s =
      (.ok (.identifier ⟨p, p + Text.byteLength v.chars⟩ v.spelling),
        s.behind rest (p + Text.byteLength v.chars) s.arrowStart) := by
  have hkind : s.token.kind = .word .other :=
    h.kind.trans (by rw [Lexeme.kind, word_of_variable])
  have hname : v.spelling ≠ "arguments" := by
    intro heq
    have hbarred := not_isBarredTarget v
    rw [heq] at hbarred
    exact absurd hbarred (by decide)
  simp [identifier, Token.word?, hkind, Word.isStrictReserved, Word.isKeyword,
    advance_apply h hrest, Token.span, h.start, h.stop, h.text, Lexeme.length, Lexeme.chars,
    Lexeme.value, hname]

theorem named_apply (g : Grammar) {v : Variable} {s : State} {p : Nat} {rest : List Char}
    (h : Holds s (.name v.toName) p rest) (hrest : Follower rest) (start : Nat)
    (canBeArrow : Bool) : named g start canBeArrow s =
      (.ok (.identifier ⟨p, p + Text.byteLength v.chars⟩ v.spelling),
        s.behind rest (p + Text.byteLength v.chars) s.arrowStart) := by
  have hname : v.spelling ≠ "async" := by
    intro heq
    have hword := word_of_variable v
    rw [Name.word, heq] at hword
    exact absurd hword (by decide)
  have harrow := Token.isMark_of_followsOperand
    (hrest.behind s (p + Text.byteLength v.chars) s.arrowStart) (m := .arrow) rfl
  simp [named, reference, identifier_apply h hrest.scans, Node.name?, hname, take_of_not_isMark,
    harrow]

theorem asyncOperand?_apply (g : Grammar) {s : State} (h : s.token.opensOperand = true)
    (start : Nat) (canBeArrow : Bool) : asyncOperand? g start canBeArrow s = (.ok none, s) := by
  simp [asyncOperand?, Token.isWord_of_opensOperand h]

theorem primary_name (g : Grammar) {v : Variable} {s : State} {p : Nat} {rest : List Char}
    (h : Holds s (.name v.toName) p rest) (hrest : Follower rest) : primary g s =
      (.ok (.identifier ⟨p, p + Text.byteLength v.chars⟩ v.spelling),
        s.behind rest (p + Text.byteLength v.chars) s.arrowStart) := by
  have hkind : s.token.kind = .word .other :=
    h.kind.trans (by rw [Lexeme.kind, word_of_variable])
  have hopens : s.token.opensOperand = true := by simp [Token.opensOperand, hkind]
  simp [primary, asyncOperand?_apply g hopens, hkind, Word.isReserved, Word.isKeyword,
    named_apply g h hrest]

theorem primary_quoted (g : Grammar) {q : Quoted} {s : State} {p : Nat} {rest : List Char}
    (h : Holds s (.quoted q) p rest) (hrest : Scans rest) : primary g s =
      (.ok (.other .literal ⟨p, p + (Lexeme.quoted q).length⟩ []),
        s.behind rest (p + (Lexeme.quoted q).length) s.arrowStart) := by
  have hkind : s.token.kind = .string := h.kind
  have hopens : s.token.opensOperand = true := by simp [Token.opensOperand, hkind]
  simp [primary, asyncOperand?_apply g hopens, hkind, literal, advance_apply h hrest, Token.span,
    h.start, h.stop]

theorem primary_template (g : Grammar) {s : State} {p : Nat} {rest : List Char}
    (h : Holds s (.sign .backquote) p rest) : primary g s =
      (Node.template <$> template g false) s := by
  have hkind : s.token.kind = .mark .backquote := h.kind
  have hopens : s.token.opensOperand = true := by simp [Token.opensOperand, hkind]
  simp only [primary, asyncOperand?_apply g hopens, hkind, bind_apply, token_apply, get_apply,
    pure_apply, map_apply]

/-- What a chain does with what it has read so far. -/
def chainStep (g : Grammar) (calls : Bool) (start : Nat) :
    Node × Bool → Reader (Option (Node × Bool)) := fun (object, goesOn) => do
  if goesOn then link? g { calls } start object else return none

theorem chain_apply (g : Grammar) (calls : Bool) (object : Node) (s : State) :
    chain g { calls } object s =
      (Prod.fst <$> iterate (chainStep g calls object.start) s.budget (object, true)) s := by
  rw [map_apply]
  rfl

theorem memberOperand_apply (g : Grammar) {s s' : State} (h : s.token.opensOperand = true)
    {n : Node} (hprimary : primary g s = (.ok n, s')) (hn : n.isOperand = true)
    (ht : s'.token.followsOperand = true) :
    memberOperand g s = chain g { calls := false } n s' := by
  simp [memberOperand, Token.isWord_of_opensOperand h, hprimary, Node.hasKind_of_isOperand hn,
    looseTypeArguments?, onTypeArguments_apply ht]

section
variable {s s' : State} {sign : Sign} {q : Nat} {rest : List Char}

theorem isMark_of_holds (h : Holds s (.sign sign) q rest) (m : Mark) :
    s.token.isMark m = (sign.mark == m) := by
  simp only [Token.isMark, h.kind, Lexeme.kind]
  by_cases hm : sign.mark = m <;> simp [hm]

theorem followsOperand_of_holds (h : Holds s (.sign sign) q rest) (hsign : sign ≠ .assign) :
    s.token.followsOperand = true := by
  simp only [Token.followsOperand, Token.endsOperand, h.kind, Lexeme.kind]
  cases sign <;> simp_all [Sign.mark]

theorem memberName_apply {m : Name} (h : Holds s (.name m) q rest) (hrest : Scans rest) :
    memberName s = (.ok (.other .name ⟨q, q + Text.byteLength m.chars⟩ []),
      s.behind rest (q + Text.byteLength m.chars) s.arrowStart) := by
  have hkind : s.token.kind = .word m.word := h.kind
  simp [memberName, Token.isMark, hkind, name, Token.isName, Token.word?, advance_apply h hrest,
    Token.span, h.start, h.stop, Lexeme.length, Lexeme.chars]

theorem link?_member (g : Grammar) (calls : Bool) (start : Nat) {n : Node}
    (hn : n.isOperand = true) {m : Name} {space : Spacing}
    (h : Holds s (.sign .dot) q (space.text ++ (m.chars ++ rest)))
    (hm : (Lexeme.name m).Ends rest) (hrest : Scans rest) :
    link? g { calls } start n s =
      let p := q + 1 + Text.byteLength space.text
      let r : Span := ⟨p, p + Text.byteLength m.chars⟩
      (.ok (some (.other .member ⟨start, r.stop⟩ [n, .other .name r []], true)),
        s.behind rest r.stop s.arrowStart) := by
  have hadvance := advance_apply h (scans_lexeme space (l := .name m) hm)
  rw [Lexeme.length_sign] at hadvance
  have hholds : Holds (s.behind (space.text ++ (m.chars ++ rest)) (q + 1) s.arrowStart) (.name m)
      (q + 1 + Text.byteLength space.text) rest := holds_behind space hm
  have hfollows := followsOperand_of_holds h (by simp)
  simp [link?, memberOrCall?, take_apply, onTypeArguments_apply hfollows, isMark_of_holds h,
    Sign.mark, Node.hasKind_of_isOperand hn, hadvance,
    memberName_apply hholds hrest, isOptionalChain_of_isOperand hn]

theorem link?_tagged (g : Grammar) (calls : Bool) (start : Nat) {n : Node}
    (hn : n.isOperand = true) {body : Template Node} (h : Holds s (.sign .backquote) q rest)
    (hbody : template g true s = (.ok body, s')) : link? g { calls } start n s =
      (.ok (some (.tagged ⟨n.start, s'.previousStop⟩ n none body, true)), s') := by
  have hfollows := followsOperand_of_holds h (by simp)
  simp [link?, memberOrCall?, take_apply, onTypeArguments_apply hfollows, isMark_of_holds h,
    Sign.mark, Node.hasKind_of_isOperand hn, taggedTemplate, hbody]

theorem link?_call (g : Grammar) (start : Nat) {n : Node} (hn : n.isOperand = true)
    {given : List Node} (h : Holds s (.sign .openParen) q rest)
    (hgiven : arguments g s = (.ok given, s')) : link? g {} start n s =
      (.ok (some (.other .call ⟨start, s'.previousStop⟩ (n :: given), true)), s') := by
  have hfollows := followsOperand_of_holds h (by simp)
  simp [link?, memberOrCall?, take_apply, onTypeArguments_apply hfollows, isMark_of_holds h,
    Sign.mark, Node.hasKind_of_isOperand hn, hgiven,
    isOptionalChain_of_isOperand hn]

theorem link?_openParen (g : Grammar) (start : Nat) {n : Node} (hn : n.isOperand = true)
    (h : Holds s (.sign .openParen) q rest) :
    link? g { calls := false } start n s = (.ok none, s) := by
  have hfollows := followsOperand_of_holds h (by simp)
  simp [link?, memberOrCall?, take_apply, onTypeArguments_apply hfollows, isMark_of_holds h,
    Sign.mark, Node.hasKind_of_isOperand hn]

end

section
variable {g : Grammar} {s s' : State} {n : Node}

theorem leftHand_of_memberOperand (h : s.token.opensOperand = true)
    (hmember : memberOperand g s = (.ok n, s')) (hn : n.isOperand = true)
    (ht : s'.token.endsOperand = true) : leftHand g s = (.ok n, s') := by
  have hfollows : s'.token.followsOperand = true := by simp [Token.followsOperand, ht]
  simp [leftHand, Token.isMark_of_opensOperand h, Token.isWord_of_opensOperand h, hmember,
    Node.hasKind_of_isOperand hn, onTypeArguments_apply hfollows, Token.isMark_of_endsOperand ht]

theorem leftHand_of_call (h : s.token.opensOperand = true)
    (hmember : memberOperand g s = (.ok n, s')) (hn : n.isOperand = true) {q : Nat}
    {rest : List Char} (hopen : Holds s' (.sign .openParen) q rest) {given : List Node}
    {s'' : State} (hgiven : arguments g s' = (.ok given, s'')) : leftHand g s =
      chain g {} (.other .call ⟨n.start, s''.previousStop⟩ (n :: given)) s'' := by
  have hfollows := followsOperand_of_holds hopen (by simp)
  simp [leftHand, Token.isMark_of_opensOperand h, Token.isWord_of_opensOperand h, hmember,
    Node.hasKind_of_isOperand hn, onTypeArguments_apply hfollows, isMark_of_holds hopen, Sign.mark,
    hgiven, isOptionalChain_of_isOperand hn]

theorem unary_apply (h : s.token.opensOperand = true) (hleft : leftHand g s = (.ok n, s'))
    (hn : n.isOperand = true) (ht : s'.token.endsOperand = true) : unary g s = (.ok n, s') := by
  have hany : s'.token.mark?.any [Mark.plusPlus, .minusMinus].contains = false :=
    Token.mark?_any_eq_false (by simp [Token.isMark_of_endsOperand ht])
  simp [unary, isPrefixOperator, Token.isMark_of_opensOperand h, Token.isWord_of_opensOperand h,
    hleft, Node.hasKind_of_isOperand hn, -List.contains_cons, hany]

theorem operatorStrength?_apply (ht : s.token.endsOperand = true) :
    operatorStrength? s = (.ok none, s) := by
  cases hk : s.token.kind with
  | mark m =>
    have hm : m.strength? = none := by
      simp only [Token.endsOperand, hk] at ht
      cases m <;> first | rfl | simp at ht
    simp [operatorStrength?, hk, hm]
  | word w =>
    have hw : w = .other ∨ w = .importWord ∨ w = .constWord := by
      simpa [Token.endsOperand, hk] using And.right (by simpa [Token.endsOperand, hk] using ht)
    rcases hw with rfl | rfl | rfl <;> simp [operatorStrength?, hk]
  | _ => simp [operatorStrength?, hk]

theorem operators_apply (ht : s.token.endsOperand = true) (bound : Nat) :
    operators g n bound s = (.ok n, s) := by
  simp [operators, Token.isWord_of_endsOperand ht, operatorStrength?_apply ht]

theorem binary_apply (h : s.token.opensOperand = true) (hleft : leftHand g s = (.ok n, s'))
    (hn : n.isOperand = true) (ht : s'.token.endsOperand = true) : binary g s = (.ok n, s') := by
  simp [binary, outcome, unary_apply h hleft hn ht, Node.hasKind_of_isOperand hn,
    operators_apply ht]

theorem conditional_apply (h : s.token.opensOperand = true) (hleft : leftHand g s = (.ok n, s'))
    (hn : n.isOperand = true) (ht : s'.token.endsOperand = true) :
    conditional g s = (.ok n, s') := by
  simp [conditional, binary_apply h hleft hn ht, Node.hasKind_of_isOperand hn, take_of_not_isMark,
    Token.isMark_of_endsOperand ht]

theorem assignmentTo_apply (ht : s.token.endsOperand = true) (start : Nat) :
    assignmentTo g start n s = (.ok n, s) := by
  simp only [assignmentTo, bind_apply, token_apply]
  cases hk : s.token.kind with
  | mark m =>
    have hm : m ≠ .assign ∧ m.isCompoundAssignment = false := by
      simp only [Token.endsOperand, hk] at ht
      cases m <;> first | exact ⟨by decide, rfl⟩ | simp at ht
    simp [Token.mark?, hk, hm]
  | _ => simp [Token.mark?, hk]

/-- Where an operand ends, it is all that is assigned. -/
theorem assignment_apply (h : s.token.opensOperand = true)
    (hleft : leftHand g { s with
      arrowStart := if startsArrow s.token then some s.token.start else none } = (.ok n, s'))
    (hn : n.isOperand = true) (ht : s'.token.endsOperand = true) :
    assignment g s = (.ok n, s') := by
  have hconditional := conditional_apply (s := { s with
    arrowStart := if startsArrow s.token then some s.token.start else none }) h hleft hn ht
  have hplain : plainAssignment g s = (.ok n, s') := by
    have hkind : s.token.kind = .word .other ∨ s.token.kind = .string ∨
        s.token.kind = .mark .backquote := by simpa [Token.opensOperand] using h
    have hform : n.kind? = none ∨ n.kind? = some .literal ∨ n.kind? = some .member ∨
        n.kind? = some .call := by simpa [Node.isOperand] using hn
    rcases hkind with hk | hk | hk <;> rcases hform with hf | hf | hf | hf <;>
      simp [plainAssignment, hk, Token.isWord, hconditional, hf, assignmentTo_apply ht]
  simp [assignment, Token.isMark_of_opensOperand h, hplain]

end

end Outdent.Written
