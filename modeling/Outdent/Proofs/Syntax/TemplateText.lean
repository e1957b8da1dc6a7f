import Mathlib.Data.List.Induction
import Mathlib.Tactic.Common
import Outdent.Syntax.Literal
/-! # Template text

Text can stand between the delimiters of a template if a scan from the left, in which a backslash
takes the next character with it, comes to no delimiter and leaves no backslash over. A template is
read up to a delimiter behind such text, and not beyond, whatever its escapes stand for. -/
namespace Outdent.Syntax

inductive Seen where
  | plain
  /-- A dollar sign, which a brace makes a delimiter. -/
  | dollar
  /-- A backslash, which takes the next character with it. -/
  | backslash
  | delimited
deriving DecidableEq

namespace Seen

def step (s : Seen) (c : Char) : Seen :=
  match s with
  | .delimited => .delimited
  | .backslash => .plain
  | .plain | .dollar =>
    if c = '\\' then .backslash
    else if c = '\x60' ∨ (c = '\x7b' ∧ s = .dollar) then .delimited
    else if c = '$' then .dollar
    else .plain

def run (s : Seen) (text : List Char) : Seen := text.foldl step s

theorem run_append (s : Seen) (xs ys : List Char) : s.run (xs ++ ys) = (s.run xs).run ys := by
  simp [run]

theorem run_delimited (text : List Char) : delimited.run text = .delimited := by
  induction text with
  | nil => rfl
  | cons c cs ih => exact ih

end Seen

/-- Text with no delimiter that a backslash does not escape, and no backslash that escapes
nothing. -/
def IsTemplateText (text : List Char) : Prop :=
  Seen.plain.run text ≠ .delimited ∧ Seen.plain.run text ≠ .backslash

instance (text : List Char) : Decidable (IsTemplateText text) := inferInstanceAs (Decidable (_ ∧ _))

/-- A character that means nothing special to a scan. -/
def IsPlain (c : Char) : Prop := c ≠ '\\' ∧ c ≠ '\x60' ∧ c ≠ '$'

instance (c : Char) : Decidable (IsPlain c) := inferInstanceAs (Decidable (_ ∧ _))

theorem Seen.step_plain {c : Char} (h : IsPlain c) : plain.step c = .plain := by
  simp [step, h.1, h.2.1, h.2.2]

theorem Seen.run_plain {cs : List Char} (h : ∀ c ∈ cs, IsPlain c) : plain.run cs = .plain := by
  induction cs with
  | nil => rfl
  | cons c cs ih =>
    have hrest := ih fun d hd => h d (List.mem_cons_of_mem _ hd)
    rw [run, List.foldl_cons, step_plain (h c List.mem_cons_self)]
    exact hrest

theorem IsTemplateText.of_plain_append {xs ys : List Char} (h : IsTemplateText (xs ++ ys))
    (hxs : ∀ c ∈ xs, IsPlain c) : IsTemplateText ys := by
  rwa [IsTemplateText, Seen.run_append, Seen.run_plain hxs] at h

theorem IsTemplateText.of_escape {c : Char} {cs : List Char}
    (h : IsTemplateText ('\\' :: c :: cs)) : IsTemplateText cs := h

theorem IsTemplateText.of_dollar {cs : List Char} (h : IsTemplateText ('$' :: cs)) :
    IsTemplateText cs ∧ cs.head? ≠ some '\x7b' := by
  cases cs with
  | nil => exact ⟨by decide, by simp⟩
  | cons c cs =>
    have hdollar : Seen.plain.run ('$' :: c :: cs) = (Seen.dollar.step c).run cs := rfl
    by_cases hc : c = '\x7b'
    · exfalso
      rw [IsTemplateText, hdollar, hc] at h
      exact h.1 (Seen.run_delimited cs)
    · have hstep : Seen.dollar.step c = Seen.plain.step c := by simp [Seen.step, hc]
      rw [IsTemplateText, hdollar, hstep] at h
      exact ⟨h, by simpa using hc⟩

theorem not_isTemplateText_backquote (cs : List Char) : ¬ IsTemplateText ('\x60' :: cs) :=
  fun h => h.1 (Seen.run_delimited cs)

theorem IsTemplateText.of_cons {c : Char} {cs : List Char} (h : IsTemplateText (c :: cs))
    (hslash : c ≠ '\\') :
    c ≠ '\x60' ∧ (c = '$' → cs.head? ≠ some '\x7b') ∧ IsTemplateText cs := by
  have hquote : c ≠ '\x60' := by
    rintro rfl
    exact not_isTemplateText_backquote cs h
  by_cases hdollar : c = '$'
  · subst hdollar
    obtain ⟨hcs, hbrace⟩ := h.of_dollar
    exact ⟨hquote, fun _ => hbrace, hcs⟩
  · have hsplit : IsTemplateText ([c] ++ cs) := h
    refine ⟨hquote, fun heq => absurd heq hdollar, hsplit.of_plain_append ?_⟩
    intro x hx
    rw [List.mem_singleton.mp hx]
    exact ⟨hslash, hquote, hdollar⟩

theorem Seen.of_step_eq_backslash {s : Seen} {c : Char} (h : s.step c = .backslash) :
    c = '\\' ∧ s ≠ .delimited ∧ s ≠ .backslash := by
  by_cases hc : c = '\\'
  · cases s with
    | plain => exact ⟨hc, by decide⟩
    | dollar => exact ⟨hc, by decide⟩
    | backslash => contradiction
    | delimited => contradiction
  · exfalso
    cases s with
    | plain => simp only [step, if_neg hc] at h; split_ifs at h
    | dollar => simp only [step, if_neg hc] at h; split_ifs at h
    | backslash => contradiction
    | delimited => contradiction

/-- The scan of a text ends at a backslash if the text is template text with a backslash behind. -/
theorem run_eq_backslash_iff {text : List Char} :
    Seen.plain.run text = .backslash ↔ ∃ front, text = front ++ ['\\'] ∧ IsTemplateText front := by
  constructor
  · intro h
    rcases List.eq_nil_or_concat text with rfl | ⟨front, c, rfl⟩
    · exact absurd h (by decide)
    · rw [List.concat_eq_append, Seen.run_append] at h
      obtain ⟨rfl, hfront⟩ := Seen.of_step_eq_backslash h
      exact ⟨front, List.concat_eq_append, hfront⟩
  · rintro ⟨front, rfl, hdelimited, hbackslash⟩
    rw [Seen.run_append]
    cases hrun : Seen.plain.run front with
    | plain => rfl
    | dollar => rfl
    | backslash => exact absurd hrun hbackslash
    | delimited => exact absurd hrun hdelimited

theorem isPlain_of_class {p : Char → Bool} (hslash : p '\\' = false) (hquote : p '\x60' = false)
    (hdollar : p '$' = false) {c : Char} (h : p c = true) : IsPlain c := by
  refine ⟨?_, ?_, ?_⟩
  · rintro rfl
    exact Bool.false_ne_true (hslash.symm.trans h)
  · rintro rfl
    exact Bool.false_ne_true (hquote.symm.trans h)
  · rintro rfl
    exact Bool.false_ne_true (hdollar.symm.trans h)

theorem isPlain_of_hexDigit {c : Char} (h : (hexDigit? c).isSome = true) : IsPlain c :=
  isPlain_of_class (p := fun c => (hexDigit? c).isSome) rfl rfl rfl h

theorem hexNumber_concat (digits : List Char) (c : Char) :
    hexNumber? (digits ++ [c]) =
      (hexNumber? digits).bind fun n => (hexDigit? c).map (16 * n + ·) := by
  simp [hexNumber?]

theorem isPlain_of_hexNumber {digits : List Char} {n : Nat} (h : hexNumber? digits = some n) :
    ∀ c ∈ digits, IsPlain c := by
  induction digits using List.reverseRecOn generalizing n with
  | nil => simp
  | append_singleton digits c ih =>
    rw [hexNumber_concat] at h
    obtain ⟨m, hm, hlast⟩ := Option.bind_eq_some_iff.mp h
    obtain ⟨k, hk, -⟩ := Option.map_eq_some_iff.mp hlast
    intro d hd
    rcases List.mem_append.mp hd with hd | hd
    · exact ih hm d hd
    · rw [List.mem_singleton.mp hd]
      exact isPlain_of_hexDigit (Option.isSome_of_mem hk)

/-- How far an escape that is well formed reaches behind its backslash. -/
def Escape.extent? : Escape → Option Nat
  | .standsFor _ length => some length
  | .octal length => some length
  | .malformed => none

theorem isPlain_of_unicodeEscape {cs : List Char} {c : Char} {length : Nat}
    (h : unicodeEscape? cs = some (c, length)) : ∀ d ∈ cs.take length, IsPlain d := by
  unfold unicodeEscape? at h
  split at h
  · next cs =>
    dsimp only at h
    split at h
    · next n tail hnumber hclose =>
      have hdigits := isPlain_of_hexNumber hnumber
      generalize hrun : cs.takeWhile (fun c => (hexDigit? c).isSome) = digits at *
      have htake : cs.take digits.length = digits := by
        rw [← hrun]
        exact (List.prefix_iff_eq_take.mp (List.takeWhile_prefix _)).symm
      have hnext : cs[digits.length]? = some '\x7d' := by
        rw [← List.head?_drop, hclose, List.head?_cons]
      split_ifs at h
      obtain ⟨-, rfl⟩ := Prod.mk.inj (Option.some.inj h)
      intro d hd
      rw [List.take_succ_cons, List.take_add_one, htake, hnext] at hd
      rcases List.mem_cons.mp hd with rfl | hd
      · decide
      · rcases List.mem_append.mp hd with hd | hd
        · exact hdigits d hd
        · rw [List.mem_singleton.mp hd]
          decide
    · contradiction
  · split_ifs at h
    obtain ⟨n, hnumber, hpair⟩ := Option.map_eq_some_iff.mp h
    obtain ⟨-, rfl⟩ := Prod.mk.inj hpair
    exact isPlain_of_hexNumber hnumber

/-- An escape takes the character behind the backslash, and behind that one nothing but characters
without a special meaning; if it is not well formed, that character has none either. -/
theorem escape_cases (c : Char) (cs : List Char) :
    ((Escape.ofText (c :: cs)).extent? = none ∧ IsPlain c) ∨
      ∃ k, (Escape.ofText (c :: cs)).extent? = some (k + 1) ∧ ∀ d ∈ cs.take k, IsPlain d := by
  unfold Escape.ofText
  split
  case h_1 heq => contradiction
  case h_8 heq =>
    obtain ⟨-, rfl⟩ := List.cons.inj heq
    refine Or.inr ⟨1, rfl, ?_⟩
    intro d hd
    rw [List.mem_singleton.mp hd]
    decide
  case h_13 heq =>
    obtain ⟨rfl, rfl⟩ := List.cons.inj heq
    have hplain : IsPlain 'x' := by decide
    split
    · exact Or.inl ⟨rfl, hplain⟩
    · cases hnumber : hexNumber? (cs.take 2) with
      | none => exact Or.inl ⟨rfl, hplain⟩
      | some n => exact Or.inr ⟨2, rfl, isPlain_of_hexNumber hnumber⟩
  case h_14 heq =>
    obtain ⟨rfl, rfl⟩ := List.cons.inj heq
    have hplain : IsPlain 'u' := by decide
    cases hescape : unicodeEscape? cs with
    | none => exact Or.inl ⟨rfl, hplain⟩
    | some result => exact Or.inr ⟨result.2, rfl, isPlain_of_unicodeEscape hescape⟩
  case h_15 => split <;> exact Or.inr ⟨0, rfl, by simp⟩
  case h_16 => split <;> exact Or.inr ⟨0, rfl, by simp⟩
  all_goals exact Or.inr ⟨0, rfl, by simp⟩

def TemplateEnd.delimiter : TemplateEnd → List Char
  | .closed => ['\x60']
  | .hole => ['$', '\x7b']
  | .unterminated => []

namespace TemplateText

/-- What is read of a text: some characters of it, and what is read behind them. -/
structure Extends (whole : TemplateText) (front : List Char) (tail : TemplateText) : Prop where
  raw : whole.raw = front ++ tail.raw
  stop : whole.stop = tail.stop
  ending : whole.ending = tail.ending
  rest : whole.rest = tail.rest

theorem Extends.refl (r : TemplateText) : Extends r [] r := ⟨rfl, rfl, rfl, rfl⟩

theorem Extends.trans {r s t : TemplateText} {xs ys : List Char} (h : Extends r xs s)
    (k : Extends s ys t) : Extends r (xs ++ ys) t where
  raw := by rw [h.raw, k.raw, List.append_assoc]
  stop := h.stop.trans k.stop
  ending := h.ending.trans k.ending
  rest := h.rest.trans k.rest

theorem extends_read_skipped (xs ys : List Char) (n : Nat) :
    Extends (read xs.length (xs ++ ys) n) xs (read 0 ys (n + Text.byteLength xs)) := by
  induction xs generalizing n with
  | nil => exact Extends.refl _
  | cons c xs ih =>
    have htail := ih (n + c.utf8Size)
    rw [Nat.add_assoc] at htail
    rw [List.length_cons, List.cons_append, read]
    exact ⟨congrArg (c :: ·) htail.raw, htail.stop, htail.ending, htail.rest⟩

theorem extends_read_plain {c : Char} (cs : List Char) (hslash : c ≠ '\\') (hquote : c ≠ '\x60')
    (hdollar : c = '$' → cs.head? ≠ some '\x7b') (n : Nat) :
    Extends (read 0 (c :: cs) n) [c] (read 0 cs (n + c.utf8Size)) := by
  rw [read]
  · exact ⟨rfl, rfl, rfl, rfl⟩
  · exact hslash
  · exact hquote
  · rintro tail rfl rfl
    exact hdollar rfl rfl

theorem extends_read_escape (cs : List Char) (n : Nat) :
    Extends (read 0 ('\\' :: cs) n) ['\\']
      (read ((Escape.ofText cs).extent?.getD 0) cs (n + 1)) := by
  rw [read]
  cases Escape.ofText cs <;> exact ⟨rfl, rfl, rfl, rfl⟩

theorem le_length_of_plain_take {cs rest : List Char} {d : Char} {k : Nat} (hd : ¬ IsPlain d)
    (hk : ∀ c ∈ (cs ++ d :: rest).take k, IsPlain c) : k ≤ cs.length := by
  by_contra hlt
  obtain ⟨j, rfl⟩ : ∃ j, k = cs.length + (j + 1) := ⟨k - cs.length - 1, by omega⟩
  apply hd
  apply hk
  rw [List.take_length_add_append, List.take_succ_cons]
  simp

theorem extends_read_escaped (c : Char) (cs : List Char) {d : Char} (hd : ¬ IsPlain d)
    (rest : List Char) (n : Nat) :
    ∃ xs ys, cs = xs ++ ys ∧ (∀ x ∈ xs, IsPlain x) ∧
      Extends (read 0 ('\\' :: c :: cs ++ d :: rest) n) ('\\' :: c :: xs)
        (read 0 (ys ++ d :: rest) (n + Text.byteLength ('\\' :: c :: xs))) := by
  have hslash := extends_read_escape (c :: (cs ++ d :: rest)) n
  rcases escape_cases c (cs ++ d :: rest) with ⟨hnone, hplain⟩ | ⟨k, hextent, hk⟩
  · rw [hnone] at hslash
    have hfirst := extends_read_plain (cs ++ d :: rest) hplain.1 hplain.2.1
      (fun h => absurd h hplain.2.2) (n + 1)
    rw [Nat.add_assoc] at hfirst
    exact ⟨[], cs, rfl, by simp, hslash.trans hfirst⟩
  · rw [hextent] at hslash
    have hle := le_length_of_plain_take hd hk
    rw [List.take_append_of_le_length hle] at hk
    have hlength : (c :: cs.take k).length = k + 1 := by
      rw [List.length_cons, List.length_take_of_le hle]
    have hskipped := extends_read_skipped (c :: cs.take k) (cs.drop k ++ d :: rest) (n + 1)
    rw [hlength, List.cons_append, ← List.append_assoc, List.take_append_drop,
      Nat.add_assoc] at hskipped
    exact ⟨cs.take k, cs.drop k, (List.take_append_drop k cs).symm, hk, hslash.trans hskipped⟩

/-- Template text in front of a character that has a special meaning is read up to there. -/
theorem extends_read {t : List Char} (ht : IsTemplateText t) {d : Char} (hd : ¬ IsPlain d)
    (rest : List Char) (n : Nat) :
    Extends (read 0 (t ++ d :: rest) n) t (read 0 (d :: rest) (n + Text.byteLength t)) := by
  induction hlength : t.length using Nat.strongRecOn generalizing t n with
  | ind length ih =>
    subst hlength
    have go : ∀ xs ys, t = xs ++ ys → xs ≠ [] → IsTemplateText ys →
        Extends (read 0 (t ++ d :: rest) n) xs
          (read 0 (ys ++ d :: rest) (n + Text.byteLength xs)) →
        Extends (read 0 (t ++ d :: rest) n) t
          (read 0 (d :: rest) (n + Text.byteLength t)) := by
      rintro xs ys rfl hne hys hfirst
      have hlt : ys.length < (xs ++ ys).length := by
        rw [List.length_append]
        have := List.length_pos_iff.mpr hne
        omega
      have hrest := ih ys.length hlt hys (n + Text.byteLength xs) rfl
      rw [Nat.add_assoc, ← Text.byteLength_append] at hrest
      exact hfirst.trans hrest
    cases t with
    | nil => exact Extends.refl _
    | cons c cs =>
      by_cases hslash : c = '\\'
      · subst hslash
        cases cs with
        | nil => exact absurd rfl ht.2
        | cons c cs =>
          obtain ⟨xs, ys, rfl, hplain, hfirst⟩ := extends_read_escaped c cs hd rest n
          exact go _ ys rfl (by simp) (ht.of_escape.of_plain_append hplain) hfirst
      · obtain ⟨hquote, hdollar, hcs⟩ := ht.of_cons hslash
        have hbrace : c = '$' → (cs ++ d :: rest).head? ≠ some '\x7b' := by
          intro hc
          cases cs with
          | nil =>
            intro hhead
            obtain rfl : d = '\x7b' := Option.some.inj hhead
            exact hd (by decide)
          | cons b cs => exact hdollar hc
        exact go [c] cs rfl (by simp) hcs (extends_read_plain _ hslash hquote hbrace n)

/-- Template text is read up to a delimiter, and the input goes on behind that. -/
structure ReadsUpTo (r : TemplateText) (text : List Char) (ending : TemplateEnd)
    (rest : List Char) : Prop where
  raw : r.raw = text
  ending : r.ending = ending
  rest : r.rest.text = rest

theorem exists_delimiter {ending : TemplateEnd} (h : ending ≠ .unterminated) :
    ∃ d ds, ending.delimiter = d :: ds ∧ ¬ IsPlain d ∧
      (∀ rest n, ReadsUpTo (read 0 (d :: (ds ++ rest)) n) [] ending rest) ∧
      ∀ rest, (Escape.ofText (d :: rest)).extent? = some 1 := by
  cases ending with
  | closed => exact ⟨'\x60', [], rfl, by decide, fun _ _ => ⟨rfl, rfl, rfl⟩, fun _ => rfl⟩
  | hole => exact ⟨'$', ['\x7b'], rfl, by decide, fun _ _ => ⟨rfl, rfl, rfl⟩, fun _ => rfl⟩
  | unterminated => exact absurd rfl h

theorem readsUpTo_read {t : List Char} (ht : IsTemplateText t) {ending : TemplateEnd}
    (hending : ending ≠ .unterminated) (rest : List Char) (n : Nat) :
    ReadsUpTo (read 0 (t ++ ending.delimiter ++ rest) n) t ending rest := by
  obtain ⟨d, ds, hdelimiter, hspecial, hends, -⟩ := exists_delimiter hending
  have hread := extends_read ht hspecial (ds ++ rest) n
  have hend := hends rest (n + Text.byteLength t)
  rw [hdelimiter, List.append_assoc]
  constructor
  · exact hread.raw.trans (by rw [hend.raw, List.append_nil])
  · exact hread.ending.trans hend.ending
  · exact (congrArg Input.text hread.rest).trans hend.rest

/-- A backslash that is left over takes the first character of a delimiter with it. -/
theorem raw_read_backslash {t : List Char} (ht : Seen.plain.run t = .backslash)
    {ending : TemplateEnd} (hending : ending ≠ .unterminated) (rest : List Char) (n : Nat) :
    ∃ d tail, (read 0 (t ++ ending.delimiter ++ rest) n).raw = t ++ d :: tail := by
  obtain ⟨front, rfl, hfront⟩ := run_eq_backslash_iff.mp ht
  obtain ⟨d, ds, hdelimiter, -, -, hextent⟩ := exists_delimiter hending
  have hread := extends_read hfront (d := '\\') (by decide) (d :: (ds ++ rest)) n
  have hescape := extends_read_escape (d :: (ds ++ rest)) (n + Text.byteLength front)
  rw [hextent] at hescape
  have hraw := (hread.trans hescape).raw
  rw [hdelimiter, List.append_assoc, List.append_assoc front]
  exact ⟨d, _, hraw⟩

end TemplateText

end Outdent.Syntax
