import Outdent.Proofs.Syntax.TemplateText
/-! # Segments in front of a delimiter

Template text in front of a delimiter is read up to there, and what its escapes are does not depend
on what stands behind. -/
namespace Outdent.Syntax

theorem hexNumber?_of_special {d : Char} (hd : ¬ IsPlain d) {cs : List Char} (h : d ∈ cs) :
    hexNumber? cs = none := by
  by_contra hne
  obtain ⟨n, hn⟩ := Option.ne_none_iff_exists'.mp hne
  exact hd (isPlain_of_hexNumber hn d h)

theorem hexNumber?_take_append (cs rest : List Char) {d : Char} (hd : ¬ IsPlain d) (k : Nat) :
    (if ((cs ++ d :: rest).take k).length < k then none
      else hexNumber? ((cs ++ d :: rest).take k)) =
      if (cs.take k).length < k then none else hexNumber? (cs.take k) := by
  by_cases hk : k ≤ cs.length
  · rw [List.take_append_of_le_length hk]
  · have hshort : (cs.take k).length < k := by
      rw [List.length_take]
      omega
    have hspecial : d ∈ (cs ++ d :: rest).take k := by
      obtain ⟨j, rfl⟩ : ∃ j, k = cs.length + (j + 1) := ⟨k - cs.length - 1, by omega⟩
      rw [List.take_length_add_append, List.take_succ_cons]
      simp
    rw [if_pos hshort, hexNumber?_of_special hd hspecial, ite_self]

theorem takeWhile_append_cons {p : Char → Bool} (xs rest : List Char) {d : Char}
    (hd : p d = false) : (xs ++ d :: rest).takeWhile p = xs.takeWhile p := by
  induction xs with
  | nil => simp [hd]
  | cons x xs ih =>
    cases hx : p x
    · simp [hx]
    · simp [hx, ih]

theorem unicodeEscape?_append (cs rest : List Char) {d : Char} (hd : ¬ IsPlain d) :
    unicodeEscape? (cs ++ d :: rest) = unicodeEscape? cs := by
  have hplain : ∀ c, IsPlain c → d ≠ c := by
    rintro c hc rfl
    exact hd hc
  have hopen : d ≠ '\x7b' := hplain _ (by decide)
  have hclose : d ≠ '\x7d' := hplain _ (by decide)
  by_cases hbrace : ∃ digits, cs = '\x7b' :: digits
  · obtain ⟨digits, rfl⟩ := hbrace
    have hnot : (hexDigit? d).isSome = false := by
      by_contra h
      exact hd (isPlain_of_hexDigit (Bool.not_eq_false _ ▸ h))
    have hrun := takeWhile_append_cons (p := fun c => (hexDigit? c).isSome) digits rest hnot
    have hle := (List.takeWhile_prefix (fun c => (hexDigit? c).isSome) (l := digits)).length_le
    simp only [List.cons_append, unicodeEscape?, hrun, List.drop_append_of_le_length hle]
    generalize digits.takeWhile (fun c => (hexDigit? c).isSome) = run
    cases hnumber : hexNumber? run with
    | none => rfl
    | some n =>
      cases hdrop : digits.drop run.length with
      | nil => simp [hclose]
      | cons c cs =>
        by_cases hc : c = '\x7d'
        · subst hc
          rfl
        · simp [hc]
  · have htake := hexNumber?_take_append cs rest hd 4
    have hcases : ∀ xs, (∀ digits, xs = '\x7b' :: digits → False) → unicodeEscape? xs =
        (if (xs.take 4).length < 4 then none else hexNumber? (xs.take 4)).map
          fun n => (codeCharacter n, 4) := by
      intro xs hxs
      rw [unicodeEscape?]
      · split <;> rfl
      · exact hxs
    rw [hcases cs fun digits h => hbrace ⟨digits, h⟩, hcases, htake]
    intro digits heq
    cases cs with
    | nil => exact hopen (List.cons.inj heq).1
    | cons c cs => exact hbrace ⟨cs, by rw [(List.cons.inj heq).1]⟩

theorem ofText_append (c : Char) (cs rest : List Char) {d : Char} (hd : ¬ IsPlain d) :
    Escape.ofText (c :: (cs ++ d :: rest)) = Escape.ofText (c :: cs) := by
  have hplain : ∀ c, IsPlain c → d ≠ c := by
    rintro c hc rfl
    exact hd hc
  by_cases hr : c = '\r'
  · subst hr
    cases cs with
    | nil =>
      have hfeed : d ≠ '\n' := hplain _ (by decide)
      simp [Escape.ofText, hfeed]
    | cons c' cs =>
      by_cases hfeed : c' = '\n'
      · subst hfeed
        rfl
      · simp [Escape.ofText, hfeed]
  · by_cases hx : c = 'x'
    · subst hx
      have hcases : ∀ xs, Escape.ofText ('x' :: xs) =
          (if (xs.take 2).length < 2 then none else hexNumber? (xs.take 2)).elim .malformed
            fun n => .standsFor [codeCharacter n] 3 := by
        intro xs
        simp only [Escape.ofText]
        split
        · rfl
        · cases hexNumber? (xs.take 2) <;> rfl
      rw [hcases, hcases, hexNumber?_take_append cs rest hd 2]
    · by_cases hu : c = 'u'
      · subst hu
        simp only [Escape.ofText, unicodeEscape?_append cs rest hd]
      · by_cases hzero : c = '0'
        · subst hzero
          cases cs with
          | nil =>
            have hoctal : isOctalDigit d = false := by
              by_contra h
              exact hd (isPlain_of_class (p := isOctalDigit) rfl rfl rfl (by simpa using h))
            simp [Escape.ofText, hoctal]
          | cons c' cs => rfl
        · unfold Escape.ofText
          split <;> simp_all

namespace TemplateText

theorem badEscape_read_plain {c : Char} (cs : List Char) (hslash : c ≠ '\\') (hquote : c ≠ '\x60')
    (hdollar : c = '$' → cs.head? ≠ some '\x7b') (n : Nat) :
    (read 0 (c :: cs) n).badEscape = (read 0 cs (n + c.utf8Size)).badEscape := by
  rw [read]
  · exact hslash
  · exact hquote
  · rintro tail rfl rfl
    exact hdollar rfl rfl

/-- Of template text in front of a special character only the escapes in the text itself count. -/
theorem badEscape_read_append {d : Char} (hd : ¬ IsPlain d) (rest : List Char) {t : List Char}
    {skipped : Nat} (hle : skipped ≤ t.length) (ht : IsTemplateText (t.drop skipped)) {m : Nat}
    (hfine : (read skipped t m).badEscape = none) (n : Nat) :
    (read skipped (t ++ d :: rest) n).badEscape =
      (read 0 (d :: rest) (n + Text.byteLength t)).badEscape := by
  induction t generalizing skipped m n with
  | nil =>
    obtain rfl : skipped = 0 := by simpa using hle
    rfl
  | cons c cs ih =>
    rw [Text.byteLength, ← Nat.add_assoc]
    cases skipped with
    | succ skipped => exact ih (Nat.le_of_succ_le_succ hle) ht hfine _
    | zero =>
      rw [List.drop_zero] at ht
      by_cases hslash : c = '\\'
      · subst hslash
        cases cs with
        | nil => exact absurd rfl ht.2
        | cons e cs =>
          have hsame := ofText_append e cs rest hd
          rw [List.cons_append, List.cons_append, read, hsame]
          rw [read] at hfine
          cases hescape : Escape.ofText (e :: cs) with
          | standsFor value length =>
            rw [hescape] at hfine
            rcases escape_cases e (cs ++ d :: rest) with ⟨hnone, -⟩ | ⟨k, hextent, hk⟩
            · simp [hsame, hescape, Escape.extent?] at hnone
            · obtain rfl : length = k + 1 := by
                simpa [hsame, hescape, Escape.extent?] using hextent
              have hlength := le_length_of_plain_take hd hk
              rw [List.take_append_of_le_length hlength] at hk
              have hdrop : IsTemplateText ((e :: cs).drop (k + 1)) := by
                rw [List.drop_succ_cons]
                refine IsTemplateText.of_plain_append ?_ hk
                rw [List.take_append_drop]
                exact ht.of_escape
              exact ih (Nat.succ_le_succ hlength) hdrop hfine _
          | octal length => simp [hescape] at hfine
          | malformed => simp [hescape] at hfine
      · obtain ⟨hquote, hdollar, hcs⟩ := ht.of_cons hslash
        have hbrace : c = '$' → (cs ++ d :: rest).head? ≠ some '\x7b' := by
          intro hc
          cases cs with
          | nil =>
            intro hhead
            obtain rfl : d = '\x7b' := Option.some.inj hhead
            exact hd (by decide)
          | cons b cs => exact hdollar hc
        rw [badEscape_read_plain cs hslash hquote hdollar] at hfine
        rw [List.cons_append, badEscape_read_plain _ hslash hquote hbrace]
        exact ih (Nat.zero_le _) hcs hfine _

end TemplateText

/-- Whether text can be a segment of a template. Only behind a tag can an escape be malformed. -/
def IsSegment (isTagged : Bool) (raw : List Char) : Prop :=
  IsTemplateText raw ∧ (isTagged = true ∨ (TemplateText.read 0 raw 0).badEscape = none)

instance (isTagged : Bool) (raw : List Char) : Decidable (IsSegment isTagged raw) :=
  inferInstanceAs (Decidable (_ ∧ _))

/-- What is read of a segment in front of a delimiter, from byte `n` on. -/
structure ReadsSegment (r : TemplateText) (isTagged : Bool) (raw : List Char) (n : Nat)
    (ending : TemplateEnd) (rest : List Char) : Prop where
  raw_eq : r.raw = raw
  stop_eq : r.stop = n + Text.byteLength raw
  ending_eq : r.ending = ending
  rest_eq : r.rest = ⟨rest, n + Text.byteLength raw + Text.byteLength ending.delimiter⟩
  isPermitted : isTagged = true ∨ r.badEscape = none

theorem readsSegment {isTagged : Bool} {raw : List Char} (h : IsSegment isTagged raw)
    (ending : TemplateEnd) (hending : ending ≠ .unterminated) (rest : List Char) (n : Nat) :
    ReadsSegment (TemplateText.read 0 (raw ++ ending.delimiter ++ rest) n) isTagged raw n ending
      rest := by
  obtain ⟨d, ds, hdelimiter, hd, hread⟩ : ∃ d ds, ending.delimiter = d :: ds ∧ ¬ IsPlain d ∧
      ∀ m, TemplateText.read 0 (d :: (ds ++ rest)) m =
        ⟨[], m, ⟨rest, m + Text.byteLength ending.delimiter⟩, ending, none⟩ := by
    cases ending with
    | closed => exact ⟨'\x60', [], rfl, by decide, fun _ => rfl⟩
    | hole => exact ⟨'$', ['\x7b'], rfl, by decide, fun _ => rfl⟩
    | unterminated => exact absurd rfl hending
  have hextends := TemplateText.extends_read h.1 hd (ds ++ rest) n
  have hbad := h.2.imp id fun hfine =>
    TemplateText.badEscape_read_append hd (ds ++ rest) (Nat.zero_le _) h.1 hfine n
  rw [hread] at hextends hbad
  have htext : raw ++ ending.delimiter ++ rest = raw ++ d :: (ds ++ rest) := by
    rw [hdelimiter, List.append_assoc, List.cons_append]
  rw [htext]
  exact ⟨by simpa using hextends.raw, hextends.stop, hextends.ending, hextends.rest, hbad⟩

end Outdent.Syntax
