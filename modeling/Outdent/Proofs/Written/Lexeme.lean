import Mathlib.Tactic.IntervalCases
import Outdent.Proofs.Written.Spacing
import Outdent.Syntax.Token
/-! # Lexemes

Names, quoted texts and signs as they are written, and the tokens that a scan makes of them. What
stands behind a lexeme must not go on with it. -/
namespace Outdent.Written

open Syntax

def isIdentifier : List Char → Bool
  | [] => false
  | c :: cs => Text.isIdentifierStart c && cs.all Text.isIdentifierPart

structure Name where
  chars : List Char
  isIdentifier : isIdentifier chars = true

namespace Name

def spelling (n : Name) : String := String.ofList n.chars

def word (n : Name) : Word := Word.ofName n.spelling

theorem chars_ne_nil (n : Name) : n.chars ≠ [] := by
  intro h
  have hname := n.isIdentifier
  rw [h] at hname
  contradiction

end Name

/-- A text between quotes that stands for itself. -/
structure Quoted where
  quote : Char
  value : List Char
  isQuote : (quote == '"' || quote == '\'') = true
  isPlain : (value.all fun c => c != quote && !(['\\', '\n', '\r'].contains c)) = true

inductive Sign where
  | backquote | semicolon | comma | dot | assign | openParen | closeParen | closeBrace
deriving DecidableEq

namespace Sign

def char : Sign → Char
  | backquote => '\x60'
  | semicolon => ';'
  | comma => ','
  | dot => '.'
  | assign => '='
  | openParen => '('
  | closeParen => ')'
  | closeBrace => '\x7d'

def mark : Sign → Mark
  | backquote => .backquote
  | semicolon => .semicolon
  | comma => .comma
  | dot => .dot
  | assign => .assign
  | openParen => .openParen
  | closeParen => .closeParen
  | closeBrace => .closeBrace

@[simp] theorem utf8Size_char (s : Sign) : s.char.utf8Size = 1 := by cases s <;> rfl

end Sign

inductive Lexeme where
  | name (n : Name)
  | quoted (q : Quoted)
  | sign (s : Sign)

namespace Lexeme

def chars : Lexeme → List Char
  | name n => n.chars
  | quoted q => q.quote :: (q.value ++ [q.quote])
  | sign s => [s.char]

def kind : Lexeme → Token.Kind
  | name n => .word n.word
  | quoted _ => .string
  | sign s => .mark s.mark

def value : Lexeme → String
  | name n => n.spelling
  | quoted q => String.ofList q.value
  | sign _ => ""

/-- Whether a character behind the lexeme does not go on with it. -/
def endsBefore : Lexeme → Char → Bool
  | name _, c => !Text.isIdentifierPart c && c != '\\'
  | quoted _, _ => true
  | sign .dot, c => c != '.' && !c.isDigit
  | sign .assign, c => c != '=' && c != '>'
  | sign _, _ => true

def Ends (l : Lexeme) (rest : List Char) : Prop := ∀ c ∈ rest.head?, l.endsBefore c = true

def length (l : Lexeme) : Nat := Text.byteLength l.chars

@[simp] theorem length_sign (s : Sign) : (sign s).length = 1 := by cases s <;> rfl

end Lexeme

theorem not_isIdentifierPart_of_isInlineBlank {c : Char} (h : isInlineBlank c = true) :
    Text.isIdentifierPart c = false := by
  simp only [isInlineBlank, Bool.or_eq_true, Bool.and_eq_true, beq_iff_eq, decide_eq_true_eq] at h
  by_cases hspaces : '\u2000' ≤ c ∧ c ≤ '\u200a'
  · have hlow : 0x2000 ≤ c.toNat := Char.le_def.mp hspaces.1
    have hhigh : c.toNat ≤ 0x200a := Char.le_def.mp hspaces.2
    rw [← Char.ofNat_toNat c]
    generalize c.toNat = n at hlow hhigh
    interval_cases n <;> decide +kernel
  · simp only [hspaces, or_false] at h
    casesm* _ ∨ _ <;> subst c <;> decide +kernel

theorem not_isIdentifierPart_of_isLineBreak {c : Char} (h : isLineBreak c = true) :
    Text.isIdentifierPart c = false := by
  simp only [isLineBreak, Bool.or_eq_true, beq_iff_eq] at h
  rcases h with ((rfl | rfl) | rfl) | rfl <;> decide +kernel

theorem ofText_sign (s : Sign) {rest : List Char} (h : (Lexeme.sign s).Ends rest) :
    Mark.ofText (s.char :: rest) = some (s.mark, 1) := by
  cases s with
  | dot =>
    cases rest with
    | nil => rfl
    | cons c cs =>
      have hc := h c rfl
      simp only [Lexeme.endsBefore, Bool.and_eq_true, bne_iff_ne] at hc
      simp [Mark.ofText, Mark.firstOf, Mark.spellings, List.isPrefixOf, Sign.char, Sign.mark,
        Ne.symm hc.1]
  | assign =>
    cases rest with
    | nil => rfl
    | cons c cs =>
      have hc := h c rfl
      simp only [Lexeme.endsBefore, Bool.and_eq_true, bne_iff_ne] at hc
      simp [Mark.ofText, Mark.firstOf, Mark.spellings, List.isPrefixOf, Sign.char, Sign.mark,
        Ne.symm hc.1, Ne.symm hc.2]
  | _ => rfl

theorem read_name {cs rest : List Char} (hcs : cs.all Text.isIdentifierPart = true)
    (h : ∀ c ∈ rest.head?, Text.isIdentifierPart c = false ∧ c ≠ '\\') (n : Nat) :
    NameText.read 0 false (cs ++ rest) n =
      ⟨cs, ⟨rest, n + Text.byteLength cs⟩, false, [], none⟩ := by
  induction cs generalizing n with
  | nil =>
    cases rest with
    | nil => simp [NameText.read, Text.byteLength]
    | cons c rest =>
      obtain ⟨hpart, hslash⟩ := h c rfl
      rw [List.nil_append, NameText.read]
      · simp [hpart, hslash, Text.byteLength]
      · exact fun _ heq => absurd heq hslash
  | cons c cs ih =>
    obtain ⟨hpart, hcs⟩ := Bool.and_eq_true_iff.mp (List.all_cons ▸ hcs)
    have hslash : c ≠ '\\' := by
      rintro rfl
      exact absurd hpart (by decide)
    rw [List.cons_append, NameText.read]
    · simp [hpart, ih hcs, Text.byteLength, Nat.add_assoc]
    · exact fun _ heq => absurd heq hslash

theorem ofInput_name (m : Name) {rest : List Char} (h : (Lexeme.name m).Ends rest) (n : Nat) :
    NameText.ofInput ⟨m.chars ++ rest, n⟩ =
      ⟨m.chars, ⟨rest, n + Text.byteLength m.chars⟩, false, [], none⟩ := by
  obtain ⟨chars, hchars⟩ := m
  cases chars with
  | nil => contradiction
  | cons c cs =>
    obtain ⟨hstart, hcs⟩ := Bool.and_eq_true_iff.mp hchars
    have hslash : c ≠ '\\' := by
      rintro rfl
      exact absurd hstart (by decide)
    have hends : ∀ d ∈ rest.head?, Text.isIdentifierPart d = false ∧ d ≠ '\\' := by
      intro d hd
      simpa [Lexeme.endsBefore] using h d hd
    rw [NameText.ofInput, List.cons_append, NameText.read]
    · simp [hstart, read_name hcs hends, Text.byteLength, Nat.add_assoc]
    · exact fun _ heq => absurd heq hslash

theorem read_quoted {quote : Char} {value : List Char}
    (h : (value.all fun c => c != quote && !(['\\', '\n', '\r'].contains c)) = true)
    (hquote : quote ≠ '\\') (rest : List Char) (start n : Nat) :
    StringText.read quote start 0 (value ++ quote :: rest) n =
      ⟨value, ⟨rest, n + Text.byteLength (value ++ [quote])⟩, [], none⟩ := by
  induction value generalizing n with
  | nil =>
    rw [List.nil_append, StringText.read]
    · simp [Text.byteLength]
    · exact hquote
  | cons c value ih =>
    simp only [List.all_cons, Bool.and_eq_true, bne_iff_ne, Bool.not_eq_true'] at h
    obtain ⟨⟨hc, hplain⟩, hvalue⟩ := h
    simp at hplain
    rw [List.cons_append, StringText.read]
    · simp [hc, hplain, ih (by simpa using hvalue), Text.byteLength, Nat.add_assoc]
    · exact hplain.1

theorem ofInput_quoted (q : Quoted) (rest : List Char) (n : Nat) :
    StringText.ofInput q.quote ⟨q.quote :: (q.value ++ q.quote :: rest), n⟩ =
      ⟨q.value, ⟨rest, n + (Lexeme.quoted q).length⟩, [], none⟩ := by
  have hquote : q.quote ≠ '\\' ∧ q.quote.utf8Size = 1 := by
    have h := q.isQuote
    simp only [Bool.or_eq_true, beq_iff_eq] at h
    rcases h with h | h <;> rw [h] <;> decide
  rw [StringText.ofInput, List.drop_succ_cons, List.drop_zero, read_quoted q.isPlain hquote.1]
  simp [Lexeme.length, Lexeme.chars, Text.byteLength, hquote.2, Nat.add_assoc]

theorem startsToken_of_isIdentifierStart {c : Char} (h : Text.isIdentifierStart c = true) :
    startsToken c = true := by
  have hpart := Text.isIdentifierPart_of_start h
  rw [startsToken, Bool.not_eq_true']
  by_contra hc
  simp only [Bool.not_eq_false, Bool.or_eq_true] at hc
  rcases hc with (hbreak | hblank) | hmark
  · simp [not_isIdentifierPart_of_isLineBreak hbreak] at hpart
  · simp [not_isIdentifierPart_of_isInlineBlank hblank] at hpart
  · simp at hmark
    casesm* _ ∨ _ <;> subst c <;> exact absurd h (by decide)

theorem exists_first (l : Lexeme) : ∃ c cs, l.chars = c :: cs ∧ startsToken c = true := by
  cases l with
  | name m =>
    obtain ⟨chars, hchars⟩ := m
    cases chars with
    | nil => contradiction
    | cons c cs =>
      exact ⟨c, cs, rfl, startsToken_of_isIdentifierStart (Bool.and_eq_true_iff.mp hchars).1⟩
  | quoted q =>
    refine ⟨q.quote, _, rfl, ?_⟩
    have h := q.isQuote
    simp only [Bool.or_eq_true, beq_iff_eq] at h
    rcases h with h | h <;> rw [h] <;> decide
  | sign s => exact ⟨s.char, [], rfl, by cases s <;> decide⟩

theorem head_lexeme {l : Lexeme} {c : Char} (h : c ∈ l.chars.head?) :
    Text.isIdentifierStart c = true ∨ c = '"' ∨ c = '\'' ∨ ∃ s, l = .sign s ∧ c = s.char := by
  cases l with
  | name m =>
    obtain ⟨chars, hchars⟩ := m
    cases chars with
    | nil => contradiction
    | cons d cs =>
      obtain rfl : d = c := Option.some.inj h
      exact Or.inl (Bool.and_eq_true_iff.mp hchars).1
  | quoted q =>
    obtain rfl : q.quote = c := Option.some.inj h
    have hquote := q.isQuote
    simp only [Bool.or_eq_true, beq_iff_eq] at hquote
    exact Or.inr (hquote.imp_right Or.inl)
  | sign s =>
    obtain rfl : s.char = c := Option.some.inj h
    exact Or.inr (Or.inr (Or.inr ⟨s, rfl, rfl⟩))

/-- A point goes on as a number in front of a digit, and as an ellipsis in front of points. -/
theorem ends_dot (g : Spacing) (m : Name) (rest : List Char) :
    (Lexeme.sign .dot).Ends (g.text ++ (m.chars ++ rest)) := by
  have hopens : ∀ c, (isLineBreak c || isInlineBlank c || c == '/' ||
      Text.isIdentifierStart c) = true → (Lexeme.sign .dot).endsBefore c = true := by
    intro c hc
    by_contra hne
    simp only [Lexeme.endsBefore, Bool.and_eq_true, not_and_or, bne_iff_ne, ne_eq, not_not,
      Bool.not_eq_true', Bool.not_eq_false] at hne
    rcases hne with rfl | hdigit
    · exact absurd hc (by decide)
    · simp only [Char.isDigit, Bool.and_eq_true, decide_eq_true_eq] at hdigit
      have hlow : 48 ≤ c.toNat := hdigit.1
      have hhigh : c.toNat ≤ 57 := hdigit.2
      rw [← Char.ofNat_toNat c] at hc
      generalize c.toNat = n at hlow hhigh hc
      interval_cases n <;> exact absurd hc (by decide)
  refine forall_head_spacing g (fun c hc _ => hopens c (by rw [hc, Bool.true_or])) fun c hc => ?_
  obtain ⟨chars, hchars⟩ := m
  cases chars with
  | nil => exact absurd hchars Bool.false_ne_true
  | cons d cs =>
    obtain rfl : d = c := Option.some.inj hc
    exact hopens d (by simp [(Bool.and_eq_true_iff.mp hchars).1])

section
variable {i : Input} {rest : List Char} {n : Nat} {newline : Bool}

theorem scan_name (m : Name) (h : (Lexeme.name m).Ends rest)
    (hgap : Gap.ofInput i = ⟨⟨m.chars ++ rest, n⟩, newline, []⟩) (stop : Nat) :
    Scan.ofInput stop i = ⟨⟨.word m.word, n, n + Text.byteLength m.chars, newline, m.spelling⟩,
      ⟨rest, n + Text.byteLength m.chars⟩, []⟩ := by
  have hread := ofInput_name m h n
  obtain ⟨chars, hchars⟩ := m
  cases chars with
  | nil => contradiction
  | cons c cs =>
    have hstart : Text.isIdentifierStart c = true := (Bool.and_eq_true_iff.mp hchars).1
    simp only [Scan.ofInput, hgap, List.cons_append, hstart, Bool.or_true, if_true, Scan.ofName]
    rw [List.cons_append] at hread
    simp only [hread, Bool.false_and, List.append_nil]
    rfl

theorem scan_quoted (q : Quoted)
    (hgap : Gap.ofInput i = ⟨⟨q.quote :: (q.value ++ q.quote :: rest), n⟩, newline, []⟩)
    (stop : Nat) : Scan.ofInput stop i =
      ⟨⟨.string, n, n + (Lexeme.quoted q).length, newline, String.ofList q.value⟩,
        ⟨rest, n + (Lexeme.quoted q).length⟩, []⟩ := by
  have hread := ofInput_quoted q rest n
  have hquote := q.isQuote
  simp only [Bool.or_eq_true, beq_iff_eq] at hquote
  have hname : (q.quote = '\\' || Text.isIdentifierStart q.quote) = false := by
    rcases hquote with h | h <;> rw [h] <;> decide
  have hdigit : (q.quote.isDigit ||
      (q.quote = '.' && (q.value ++ q.quote :: rest).head?.any Char.isDigit)) = false := by
    rcases hquote with h | h <;> rw [h] <;> rfl
  have hsame : (q.quote = '"' || q.quote = '\'') = true := by simpa using hquote
  simp only [Scan.ofInput, hgap, hname, hdigit, hsame, Scan.ofString, hread]
  rfl

theorem scan_sign (s : Sign) (h : (Lexeme.sign s).Ends rest)
    (hgap : Gap.ofInput i = ⟨⟨s.char :: rest, n⟩, newline, []⟩) (stop : Nat) :
    Scan.ofInput stop i =
      ⟨⟨.mark s.mark, n, n + (Lexeme.sign s).length, newline, ""⟩,
        ⟨rest, n + (Lexeme.sign s).length⟩, []⟩ := by
  have hname : (s.char = '\\' || Text.isIdentifierStart s.char) = false := by cases s <;> decide
  have hdigit : (s.char.isDigit || (s.char = '.' && rest.head?.any Char.isDigit)) = false := by
    cases s with
    | dot =>
      cases rest with
      | nil => rfl
      | cons c cs =>
        have hc : c ≠ '.' ∧ c.isDigit = false := by simpa [Lexeme.endsBefore] using h c rfl
        simp [Sign.char, hc.2]
    | _ => rfl
  have hquote : (s.char = '"' || s.char = '\'') = false := by cases s <;> decide
  simp only [Scan.ofInput, hgap, hname, hdigit, hquote, Scan.ofMark, ofText_sign s h]
  simp [Input.drop, Text.byteLength]

end

theorem scan_lexeme (g : Spacing) (l : Lexeme) {rest : List Char} (h : l.Ends rest)
    (stop p : Nat) : Scan.ofInput stop ⟨g.text ++ (l.chars ++ rest), p⟩ =
      ⟨⟨l.kind, p + Text.byteLength g.text, p + Text.byteLength g.text + l.length, g.breaksLine,
        l.value⟩, ⟨rest, p + Text.byteLength g.text + l.length⟩, []⟩ := by
  obtain ⟨c, cs, hchars, hc⟩ := exists_first l
  have hgap : Gap.ofInput ⟨g.text ++ (l.chars ++ rest), p⟩ =
      ⟨⟨l.chars ++ rest, p + Text.byteLength g.text⟩, g.breaksLine, []⟩ := by
    rw [hchars]
    exact ofInput_spacing g hc (cs ++ rest) p
  cases l with
  | name m => exact scan_name m h hgap stop
  | quoted q => exact scan_quoted q (by simpa [Lexeme.chars] using hgap) stop
  | sign s => exact scan_sign s h hgap stop

theorem scan_end (g : Spacing) (stop p : Nat) : Scan.ofInput stop ⟨g.text, p⟩ =
    ⟨⟨.endOfText, stop, stop, g.breaksLine, ""⟩, ⟨[], p + Text.byteLength g.text⟩, []⟩ := by
  simp [Scan.ofInput, ofInput_spacing_end]

end Outdent.Written
