import Mathlib.Tactic.Common
import Outdent.Syntax.Gap
import Outdent.Text.Identifier
/-! # Spacing

Blanks, line breaks and comments between tokens. A scan goes over them in front of the next token
and learns whether a line ends there. -/
namespace Outdent.Written

open Syntax

/-- Whether a block comment with this text in it does not end before the text does. -/
def staysOpen : List Char → Bool
  | '*' :: '/' :: _ => false
  | _ :: cs => staysOpen cs
  | [] => true

/-- A byte order mark is left out, since a document can start with one. -/
inductive Space where
  | blank (c : Char) (isBlank : (isInlineBlank c && c != '\ufeff') = true)
  | lineBreak (c : Char) (isBreak : isLineBreak c = true)
  | lineComment (text : List Char) (c : Char) (isBreak : isLineBreak c = true)
      (staysOnLine : text.all (! isLineBreak ·) = true)
  | blockComment (text : List Char) (staysOpen : staysOpen text = true)

abbrev Spacing := List Space

namespace Space

def text : Space → List Char
  | blank c _ => [c]
  | lineBreak c _ => [c]
  | lineComment text c _ _ => '/' :: '/' :: (text ++ [c])
  | blockComment text _ => '/' :: '*' :: (text ++ ['*', '/'])

def breaksLine : Space → Bool
  | blank _ _ => false
  | lineBreak _ _ => true
  | lineComment _ _ _ _ => true
  | blockComment text _ => text.any isLineBreak

end Space

namespace Spacing

def text (g : Spacing) : List Char := g.flatMap Space.text

def breaksLine (g : Spacing) : Bool := g.any Space.breaksLine

@[simp] theorem text_nil : text [] = [] := rfl

@[simp] theorem text_cons (x : Space) (g : Spacing) : text (x :: g) = x.text ++ text g := rfl

@[simp] theorem text_append (g g' : Spacing) : text (g ++ g') = text g ++ text g' := by
  simp [text]

end Spacing

/-- Whether no gap and no line for the shell starts with a character. -/
def startsToken (c : Char) : Bool :=
  !(isLineBreak c || isInlineBlank c || ['/', '<', '-', '#'].contains c)

theorem skip_cons {c : Char} (hopen : ['/', '<', '-'].contains c = false) (cs : List Char) (n : Nat)
    (lineStart newline : Bool) : Gap.skip .blanks (c :: cs) n lineStart newline =
      if isLineBreak c then Gap.skip .blanks cs (n + c.utf8Size) true true
      else if isInlineBlank c then Gap.skip .blanks cs (n + c.utf8Size) lineStart newline
      else ⟨⟨c :: cs, n⟩, newline, []⟩ := by
  rw [Gap.skip]
  all_goals
    rintro tail rfl
    simp at hopen

theorem not_isInlineBlank_of_isLineBreak {c : Char} (h : isLineBreak c = true) :
    isInlineBlank c = false := by
  simp only [isLineBreak, Bool.or_eq_true, beq_iff_eq] at h
  rcases h with ((rfl | rfl) | rfl) | rfl <;> decide

theorem skip_blank {c : Char} (hblank : isInlineBlank c = true) (cs : List Char) (n : Nat)
    (lineStart newline : Bool) : Gap.skip .blanks (c :: cs) n lineStart newline =
      Gap.skip .blanks cs (n + c.utf8Size) lineStart newline := by
  have hbreak : ¬ isLineBreak c = true := by
    intro h
    rw [not_isInlineBlank_of_isLineBreak h] at hblank
    contradiction
  have hopen : ['/', '<', '-'].contains c = false := by
    by_contra h
    simp only [List.contains_cons, List.contains_nil, Bool.or_false, Bool.not_eq_false,
      Bool.or_eq_true, beq_iff_eq] at h
    rcases h with rfl | rfl | rfl <;> simp [isInlineBlank] at hblank
  rw [skip_cons hopen, if_neg hbreak, if_pos hblank]

theorem skip_lineBreak {c : Char} (hbreak : isLineBreak c = true) (cs : List Char) (n : Nat)
    (lineStart newline : Bool) : Gap.skip .blanks (c :: cs) n lineStart newline =
      Gap.skip .blanks cs (n + c.utf8Size) true true := by
  have hopen : ['/', '<', '-'].contains c = false := by
    simp only [isLineBreak, Bool.or_eq_true, beq_iff_eq] at hbreak
    rcases hbreak with ((rfl | rfl) | rfl) | rfl <;> decide
  rw [skip_cons hopen, if_pos hbreak]

theorem skip_lineComment {text : List Char} (hstays : text.all (! isLineBreak ·) = true) {c : Char}
    (hbreak : isLineBreak c = true) (cs : List Char) (n : Nat) (lineStart newline : Bool) :
    Gap.skip .lineComment (text ++ c :: cs) n lineStart newline =
      Gap.skip .blanks cs (n + Text.byteLength (text ++ [c])) true true := by
  have hstep : ∀ d ds m, Gap.skip .lineComment (d :: ds) m lineStart newline =
      if isLineBreak d then Gap.skip .blanks ds (m + d.utf8Size) true true
      else Gap.skip .lineComment ds (m + d.utf8Size) lineStart newline := fun _ _ _ => rfl
  induction text generalizing n with
  | nil =>
    rw [List.nil_append, hstep, if_pos hbreak]
    rfl
  | cons d text ih =>
    simp only [List.all_cons, Bool.and_eq_true, Bool.not_eq_true'] at hstays
    rw [List.cons_append, hstep, if_neg (by simp [hstays.1]), ih hstays.2]
    simp only [List.cons_append, Text.byteLength, Nat.add_assoc]

theorem skip_blockComment {text : List Char} (hstays : staysOpen text = true) (cs : List Char)
    (n : Nat) (lineStart newline : Bool) :
    Gap.skip .blockComment (text ++ '*' :: '/' :: cs) n lineStart newline =
      Gap.skip .blanks cs (n + Text.byteLength (text ++ ['*', '/']))
        (lineStart || text.any isLineBreak) (newline || text.any isLineBreak) := by
  induction text generalizing n lineStart newline with
  | nil =>
    rw [List.any_nil, Bool.or_false, Bool.or_false]
    rfl
  | cons d text ih =>
    have hclose : ∀ tail, d = '*' → text ++ '*' :: '/' :: cs = '/' :: tail → False := by
      rintro tail rfl heq
      cases text with
      | nil => simp at heq
      | cons e text =>
        obtain rfl : e = '/' := (List.cons.inj heq).1
        simp [staysOpen] at hstays
    have htail : staysOpen text = true := by
      rw [staysOpen] at hstays
      · exact hstays
      · rintro tail rfl rfl
        simp [staysOpen] at hstays
    rw [List.cons_append, Gap.skip, ih htail]
    · simp only [List.cons_append, Text.byteLength, Nat.add_assoc, List.any_cons, Bool.or_assoc]
    · exact fun tail h heq => hclose tail h heq

theorem skip_space (x : Space) (cs : List Char) (n : Nat) (lineStart newline : Bool) :
    Gap.skip .blanks (x.text ++ cs) n lineStart newline =
      Gap.skip .blanks cs (n + Text.byteLength x.text) (lineStart || x.breaksLine)
        (newline || x.breaksLine) := by
  have hslash : '/'.utf8Size = 1 := rfl
  have hstar : '*'.utf8Size = 1 := rfl
  cases x with
  | blank c hblank =>
    have hinline : isInlineBlank c = true := (Bool.and_eq_true_iff.mp hblank).1
    simp [Space.text, Space.breaksLine, skip_blank hinline, Text.byteLength]
  | lineBreak c hbreak =>
    simp [Space.text, Space.breaksLine, skip_lineBreak hbreak, Text.byteLength]
  | lineComment text c hbreak hstays =>
    have hskip := skip_lineComment hstays hbreak cs (n + 2) lineStart newline
    have hopen : Gap.skip .blanks ('/' :: '/' :: (text ++ c :: cs)) n lineStart newline =
        Gap.skip .lineComment (text ++ c :: cs) (n + 2) lineStart newline := rfl
    simp only [Space.text, Space.breaksLine, List.cons_append, List.append_assoc, List.nil_append,
      Text.byteLength, Bool.or_true, hslash] at hskip ⊢
    rw [hopen, hskip]
    congr 1
    omega
  | blockComment text hstays =>
    have hskip := skip_blockComment hstays cs (n + 2) lineStart newline
    have hopen : Gap.skip .blanks ('/' :: '*' :: (text ++ '*' :: '/' :: cs)) n lineStart newline =
        Gap.skip .blockComment (text ++ '*' :: '/' :: cs) (n + 2) lineStart newline := rfl
    simp only [Space.text, Space.breaksLine, List.cons_append, List.append_assoc, List.nil_append,
      Text.byteLength, hslash, hstar] at hskip ⊢
    rw [hopen, hskip]
    congr 1
    omega

theorem skip_spacing (g : Spacing) (cs : List Char) (n : Nat) (lineStart newline : Bool) :
    Gap.skip .blanks (g.text ++ cs) n lineStart newline =
      Gap.skip .blanks cs (n + Text.byteLength g.text) (lineStart || g.breaksLine)
        (newline || g.breaksLine) := by
  induction g generalizing n lineStart newline with
  | nil => simp [Text.byteLength, Spacing.breaksLine]
  | cons x g ih =>
    rw [Spacing.text_cons, List.append_assoc, skip_space, ih, Text.byteLength_append]
    simp only [Nat.add_assoc, Spacing.breaksLine, List.any_cons, Bool.or_assoc]

theorem skip_token {c : Char} (h : startsToken c = true) (cs : List Char) (n : Nat)
    (lineStart newline : Bool) : Gap.skip .blanks (c :: cs) n lineStart newline =
      ⟨⟨c :: cs, n⟩, newline, []⟩ := by
  simp only [startsToken, Bool.not_eq_true', Bool.or_eq_false_iff] at h
  obtain ⟨⟨hbreak, hblank⟩, hmark⟩ := h
  have hopen : ['/', '<', '-'].contains c = false := by
    simp only [List.contains_cons, Bool.or_eq_false_iff] at hmark ⊢
    exact ⟨hmark.1, hmark.2.1, hmark.2.2.1, rfl⟩
  rw [skip_cons hopen, if_neg (by simp [hbreak]), if_neg (by simp [hblank])]

theorem exists_head (x : Space) : ∃ c cs, x.text = c :: cs ∧
    (isLineBreak c || isInlineBlank c || c == '/') = true ∧ c ≠ '\ufeff' := by
  cases x with
  | blank c hblank =>
    obtain ⟨hinline, hmark⟩ := Bool.and_eq_true_iff.mp hblank
    exact ⟨c, [], rfl, by simp [hinline], by simpa using hmark⟩
  | lineBreak c hbreak =>
    refine ⟨c, [], rfl, by simp [hbreak], ?_⟩
    rintro rfl
    simp [isLineBreak] at hbreak
  | lineComment text c _ _ => exact ⟨'/', _, rfl, by simp, by decide⟩
  | blockComment text _ => exact ⟨'/', _, rfl, by simp, by decide⟩

theorem forall_head_spacing (g : Spacing) {text : List Char} {P : Char → Prop}
    (hspace : ∀ c, (isLineBreak c || isInlineBlank c || c == '/') = true → c ≠ '\ufeff' → P c)
    (htext : ∀ c ∈ text.head?, P c) : ∀ c ∈ (g.text ++ text).head?, P c := by
  cases g with
  | nil => exact htext
  | cons x g =>
    obtain ⟨c, cs, hx, hc, hmark⟩ := exists_head x
    rw [Spacing.text_cons, hx]
    rintro d hd
    obtain rfl : c = d := Option.some.inj hd
    exact hspace c hc hmark

/-- No line for the shell starts behind spacing, since its hash sign is the first of a text. -/
theorem not_startsWith_shell (g : Spacing) (text : List Char)
    (h : ∀ c ∈ text.head?, c ≠ '#') (p : Nat) :
    (Input.mk (g.text ++ text) p).startsWith ['#', '!'] = false := by
  have hhead : ∀ c ∈ (g.text ++ text).head?, c ≠ '#' := by
    refine forall_head_spacing g ?_ h
    rintro c hc - rfl
    simp [isLineBreak, isInlineBlank] at hc
  cases hcs : g.text ++ text with
  | nil => rfl
  | cons c cs =>
    rw [hcs] at hhead
    have hc : c ≠ '#' := hhead c rfl
    simp [Input.startsWith, List.isPrefixOf, Ne.symm hc]

theorem ofInput_spacing (g : Spacing) {c : Char} (hc : startsToken c = true) (cs : List Char)
    (p : Nat) : Gap.ofInput ⟨g.text ++ c :: cs, p⟩ =
      ⟨⟨c :: cs, p + Text.byteLength g.text⟩, g.breaksLine, []⟩ := by
  have hshell := not_startsWith_shell g (c :: cs) (by
    rintro d hd rfl
    obtain rfl : c = '#' := Option.some.inj hd
    exact absurd hc (by decide)) p
  rw [Gap.ofInput, hshell, Bool.and_false, if_neg (by simp), skip_spacing, skip_token hc,
    Bool.false_or]

theorem ofInput_spacing_end (g : Spacing) (p : Nat) :
    Gap.ofInput ⟨g.text, p⟩ = ⟨⟨[], p + Text.byteLength g.text⟩, g.breaksLine, []⟩ := by
  have hshell := not_startsWith_shell g [] (by simp) p
  have hskip := skip_spacing g [] p (p == 0) false
  rw [List.append_nil] at hshell hskip
  rw [Gap.ofInput, hshell, Bool.and_false, if_neg (by simp), hskip, Bool.false_or]
  rfl

end Outdent.Written
