import Outdent.Proofs.Edit.Order
import Outdent.Proofs.Text.Slice
/-! # What edits make of each character

Accepted edits act on characters one by one: a character that no edit covers stays, the first one
that an edit covers gives way to the replacement, and the others it covers go. This reading knows no
order of edits, and a result is put together from stretches of the document. -/
namespace Outdent

def Span.Covers (r : Span) (offset : Nat) : Prop := r.start ≤ offset ∧ offset < r.stop

instance (r : Span) (offset : Nat) : Decidable (r.Covers offset) :=
  inferInstanceAs (Decidable (_ ∧ _))

theorem Span.Apart.not_covers {a b : Span} {o : Nat} (h : a.Apart b) (ha : a.Covers o) :
    ¬ b.Covers o := by
  unfold Apart at h
  unfold Covers at *
  omega

namespace Edit

def emitted (es : List Edit) (offset : Nat) (c : Char) : List Char :=
  match es.find? fun e => decide (e.range.Covers offset) with
  | none => [c]
  | some e => if e.range.start = offset then e.replacement else []

def emittedAlong (es : List Edit) : (offset : Nat) → List Char → List Char
  | _, [] => []
  | offset, c :: cs => emitted es offset c ++ emittedAlong es (offset + c.utf8Size) cs

/-- What stands in the result for the stretch of a document between two byte offsets. -/
def emittedBetween (es : List Edit) (text : List Char) (start stop : Nat) : List Char :=
  emittedAlong es start (Text.slice start stop text)

/-- Edits that cover no character put nothing in. -/
def Neutral (es : List Edit) : Prop :=
  ∀ e ∈ es, e.range.stop ≤ e.range.start → e.replacement = []

theorem emitted_of_untouched {es : List Edit} {o : Nat} {c : Char}
    (h : ∀ e ∈ es, ¬ e.range.Covers o) : emitted es o c = [c] := by
  have hf : es.find? (fun e => decide (e.range.Covers o)) = none := by
    rw [List.find?_eq_none]
    intro e he
    simpa using h e he
  rw [emitted, hf]

theorem emitted_of_covers {text : List Char} {es : List Edit} (h : Accepted text es) {e : Edit}
    (he : e ∈ es) {o : Nat} (ho : e.range.Covers o) (c : Char) :
    emitted es o c = if e.range.start = o then e.replacement else [] := by
  have hf : es.find? (fun f => decide (f.range.Covers o)) = some e := by
    cases hfind : es.find? (fun f => decide (f.range.Covers o)) with
    | none =>
      have := List.find?_eq_none.mp hfind e he
      simp [ho] at this
    | some f =>
      have hf := List.mem_of_find?_eq_some hfind
      have hc : f.range.Covers o := by simpa using List.find?_some hfind
      by_contra hne
      exact (h.apart_of_ne hf he (fun heq => hne (heq ▸ rfl))).not_covers hc ho
  rw [emitted, hf]

theorem emittedAlong_append (es : List Edit) (o : Nat) (xs ys : List Char) :
    emittedAlong es o (xs ++ ys) =
      emittedAlong es o xs ++ emittedAlong es (o + Text.byteLength xs) ys := by
  induction xs generalizing o with
  | nil => simp [emittedAlong, Text.byteLength]
  | cons c xs ih => simp [emittedAlong, Text.byteLength, ih, Nat.add_assoc]

theorem emittedAlong_congr {es fs : List Edit} {o : Nat} (cs : List Char)
    (h : ∀ p c, o ≤ p → p < o + Text.byteLength cs → emitted es p c = emitted fs p c) :
    emittedAlong es o cs = emittedAlong fs o cs := by
  induction cs generalizing o with
  | nil => rfl
  | cons c cs ih =>
    have hc := c.utf8Size_pos
    simp only [Text.byteLength] at h
    simp only [emittedAlong]
    rw [h o c (Nat.le_refl o) (by omega), ih fun p d hp hq => h p d (by omega) (by omega)]

theorem emittedAlong_untouched {es : List Edit} {o : Nat} {cs : List Char}
    (h : ∀ p, o ≤ p → p < o + Text.byteLength cs → ∀ e ∈ es, ¬ e.range.Covers p) :
    emittedAlong es o cs = cs := by
  induction cs generalizing o with
  | nil => rfl
  | cons c cs ih =>
    have hc := c.utf8Size_pos
    simp only [Text.byteLength] at h
    simp only [emittedAlong]
    rw [emitted_of_untouched (h o (Nat.le_refl o) (by omega)),
      ih fun p hp hq => h p (by omega) (by omega)]
    rfl

theorem emittedAlong_behind_start {text : List Char} {es : List Edit} (h : Accepted text es)
    {e : Edit} (he : e ∈ es) {o : Nat} {cs : List Char} (ho : e.range.start < o)
    (hs : o + Text.byteLength cs ≤ e.range.stop) : emittedAlong es o cs = [] := by
  induction cs generalizing o with
  | nil => rfl
  | cons c cs ih =>
    have hc := c.utf8Size_pos
    simp only [Text.byteLength] at hs
    have hcov : e.range.Covers o := ⟨by omega, by omega⟩
    simp only [emittedAlong]
    rw [emitted_of_covers h he hcov, if_neg (by omega), ih (by omega) (by omega)]
    rfl

theorem emittedAlong_range {text : List Char} {es : List Edit} (h : Accepted text es)
    {e : Edit} (he : e ∈ es) {cs : List Char} (hne : cs ≠ [])
    (hs : e.range.start + Text.byteLength cs = e.range.stop) :
    emittedAlong es e.range.start cs = e.replacement := by
  cases cs with
  | nil => exact absurd rfl hne
  | cons c cs =>
    have hc := c.utf8Size_pos
    simp only [Text.byteLength] at hs
    have hcov : e.range.Covers e.range.start := ⟨Nat.le_refl _, by omega⟩
    simp only [emittedAlong]
    rw [emitted_of_covers h he hcov, if_pos rfl,
      emittedAlong_behind_start h he (by omega) (by omega), List.append_nil]

theorem emittedBetween_self (es : List Edit) (text : List Char) (a : Nat) :
    emittedBetween es text a a = [] := by
  rw [emittedBetween, Text.slice_self]
  rfl

theorem emittedBetween_append {es : List Edit} {text : List Char} {a b c : Nat}
    (ha : Text.isBoundary a text = true) (hb : Text.isBoundary b text = true)
    (hc : Text.isBoundary c text = true) (hab : a ≤ b) (hbc : b ≤ c) :
    emittedBetween es text a c = emittedBetween es text a b ++ emittedBetween es text b c := by
  have hlen : a + Text.byteLength (Text.slice a b text) = b := by
    rw [Text.byteLength_slice ha hb hab]
    omega
  unfold emittedBetween
  rw [Text.slice_append ha hb hc hab hbc, emittedAlong_append, hlen]

theorem emittedBetween_untouched {es : List Edit} {text : List Char} {a b : Nat}
    (ha : Text.isBoundary a text = true) (hb : Text.isBoundary b text = true) (hab : a ≤ b)
    (h : ∀ p, a ≤ p → p < b → ∀ e ∈ es, ¬ e.range.Covers p) :
    emittedBetween es text a b = Text.slice a b text := by
  apply emittedAlong_untouched
  intro p hp hq
  rw [Text.byteLength_slice ha hb hab] at hq
  exact h p hp (by omega)

theorem emittedBetween_range {es : List Edit} {text : List Char} (h : Accepted text es)
    (neutral : Neutral es) {e : Edit} (he : e ∈ es) :
    emittedBetween es text e.range.start e.range.stop = e.replacement := by
  obtain ⟨hle, -, ha, hb⟩ := Span.isValidIn_iff.mp (h.valid e he)
  have hlen := Text.byteLength_slice ha hb hle
  rcases Nat.lt_or_ge e.range.start e.range.stop with hlt | hge
  · apply emittedAlong_range h he
    · intro hnil
      rw [hnil] at hlen
      simp only [Text.byteLength] at hlen
      omega
    · omega
  · have heq : e.range.stop = e.range.start := by omega
    rw [heq, emittedBetween_self, neutral e he (by omega)]

/-- Behind `xs` a text falls into what stands before an edit, what the edit takes and what
follows. -/
structure CutAt (text xs : List Char) (e : Edit) (before old after : List Char) : Prop where
  text_eq : text = xs ++ before ++ old ++ after
  start : Text.byteLength (xs ++ before) = e.range.start
  stop : Text.byteLength (xs ++ before ++ old) = e.range.stop

theorem exists_cutAt {text xs rest : List Char} {e : Edit} (htext : text = xs ++ rest)
    (hv : e.range.isValidIn text = true) (hle : Text.byteLength xs ≤ e.range.start) :
    ∃ before old after, rest = before ++ (old ++ after) ∧ CutAt text xs e before old after := by
  obtain ⟨hforward, -, ha, hb⟩ := Span.isValidIn_iff.mp hv
  obtain ⟨us, tail, hu, hus⟩ := Text.isBoundary_iff.mp ha
  obtain ⟨before, rfl, hrest⟩ : ∃ before, us = xs ++ before ∧ rest = before ++ tail :=
    Text.exists_between (htext.symm.trans hu) (by omega)
  obtain ⟨ws, after, hw, hws⟩ := Text.isBoundary_iff.mp hb
  obtain ⟨old, rfl, htail⟩ : ∃ old, ws = xs ++ before ++ old ∧ tail = old ++ after :=
    Text.exists_between (hu.symm.trans hw) (by omega)
  exact ⟨before, old, after, by rw [hrest, htail], hw, hus, hws⟩

namespace CutAt

variable {text xs before old after : List Char} {e : Edit}

theorem slice_eq (h : CutAt text xs e before old after) :
    Text.slice (Text.byteLength xs) e.range.start text = before := by
  have hmiddle := Text.slice_middle xs before (old ++ after)
  rwa [← Text.byteLength_append, h.start, ← List.append_assoc, ← h.text_eq] at hmiddle

theorem pieces_cons (h : CutAt text xs e before old after) (es : List Edit) :
    pieces (Text.byteLength xs) (before ++ (old ++ after)) (e :: es) =
      .kept before :: .swapped old e.replacement :: pieces e.range.stop after es := by
  have hstart := h.start
  have hstop := h.stop
  rw [Text.byteLength_append] at hstart hstop
  have hbefore : e.range.start - Text.byteLength xs = Text.byteLength before := by omega
  have hold : e.range.stop - e.range.start = Text.byteLength old := by
    rw [Text.byteLength_append] at hstop
    omega
  rw [pieces, hbefore, hold, Text.splitAtByte_byteLength]
  simp only [Text.splitAtByte_byteLength]

end CutAt

/-- Pieces cut along edits in order give what the edits make of each character. -/
theorem flatMap_output_pieces {text : List Char} {es : List Edit} (xs : List Char)
    {rest : List Char} (htext : text = xs ++ rest) (hv : ∀ e ∈ es, e.range.isValidIn text = true)
    (hf : Span.Follows (Text.byteLength xs) (es.map range)) (neutral : Neutral es) :
    (pieces (Text.byteLength xs) rest es).flatMap Piece.output =
      emittedAlong es (Text.byteLength xs) rest := by
  induction es generalizing xs rest with
  | nil =>
    rw [emittedAlong_untouched (by simp)]
    simp [pieces, Piece.output]
  | cons e es ih =>
    have hstart := hf.1
    have hrest := hf.2
    obtain ⟨hle, -⟩ := Span.isValidIn_iff.mp (hv e List.mem_cons_self)
    have hv' : ∀ f ∈ es, f.range.isValidIn text = true :=
      fun f hf => hv f (List.mem_cons_of_mem _ hf)
    have later : ∀ f ∈ es, e.range.stop ≤ f.range.start := start_le_of_follows hv' hrest
    have accepted : Accepted text (e :: es) := accepted_of_follows hv hf
    obtain ⟨before, old, after, rfl, hcut⟩ :=
      exists_cutAt htext (hv e List.mem_cons_self) hstart
    have hbefore : Text.byteLength xs + Text.byteLength before = e.range.start := by
      rw [← Text.byteLength_append, hcut.start]
    have hold : e.range.start + Text.byteLength old = e.range.stop := by
      rw [← hcut.start, ← Text.byteLength_append, hcut.stop]
    have first : emittedAlong (e :: es) (Text.byteLength xs) before = before := by
      apply emittedAlong_untouched
      intro p hp hq f hf hcov
      have hlow : e.range.start ≤ f.range.start := by
        rcases List.mem_cons.mp hf with rfl | hf
        · exact Nat.le_refl _
        · exact Nat.le_trans hle (later f hf)
      have := hcov.1
      omega
    have second : emittedAlong (e :: es) e.range.start old = e.replacement := by
      by_cases hne : old = []
      · subst hne
        simp only [Text.byteLength] at hold
        rw [neutral e List.mem_cons_self (by omega)]
        rfl
      · exact emittedAlong_range accepted List.mem_cons_self hne (by omega)
    have third : emittedAlong (e :: es) e.range.stop after =
        emittedAlong es e.range.stop after := by
      apply emittedAlong_congr
      intro p c hp _
      have hcov : ¬ e.range.Covers p := fun h => by have := h.2; omega
      simp only [emitted]
      rw [List.find?_cons_of_neg (by simpa using hcov)]
    have fourth := ih (xs ++ before ++ old) hcut.text_eq hv' (hcut.stop ▸ hrest)
      (fun f hf => neutral f (List.mem_cons_of_mem _ hf))
    rw [hcut.stop] at fourth
    rw [hcut.pieces_cons, emittedAlong_append, emittedAlong_append, first, hbefore, second, hold,
      third, ← fourth]
    rfl

theorem emitted_sort {text : List Char} {es : List Edit} (h : Accepted text es) (o : Nat)
    (c : Char) : emitted (sort es) o c = emitted es o c := by
  have hs : Accepted text (sort es) := by
    constructor
    · exact fun e he => h.valid e (mem_sort.mp he)
    · exact (perm_sort es).symm.pairwise h.apart fun hab => hab.symm
  by_cases hc : ∃ e ∈ es, e.range.Covers o
  · obtain ⟨e, he, ho⟩ := hc
    rw [emitted_of_covers h he ho, emitted_of_covers hs (mem_sort.mpr he) ho]
  · have hn : ∀ e ∈ es, ¬ e.range.Covers o := fun e he ho => hc ⟨e, he, ho⟩
    rw [emitted_of_untouched hn, emitted_of_untouched fun e he => hn e (mem_sort.mp he)]

theorem flatMap_output_of_cut {text : List Char} {es : List Edit} {ps : List Piece}
    (h : cut text es = .ok ps) (neutral : Neutral es) :
    ps.flatMap Piece.output = emittedBetween es text 0 (Text.byteLength text) := by
  have accepted := accepted_of_cut h
  obtain ⟨hc, rfl⟩ := cut_eq_ok_iff.mp h
  obtain ⟨hv, hf⟩ := check_eq_ok_iff.mp hc
  have hp := flatMap_output_pieces [] rfl hv hf fun e he => neutral e (mem_sort.mp he)
  simp only [Text.byteLength] at hp
  rw [hp, emittedBetween, Text.slice_whole]
  exact emittedAlong_congr text fun p c _ _ => emitted_sort accepted p c

end Edit

end Outdent
