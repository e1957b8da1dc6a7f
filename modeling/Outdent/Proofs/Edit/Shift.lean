import Mathlib.Data.List.Forall2
import Outdent.Proofs.Edit.Emission
import Outdent.Proofs.Syntax.Layout
/-! # Where offsets end up

An offset of a document is shifted to the end of what edits make of the text in front of it. Between
boundaries the shift is monotone, so spans keep their order, and the slice between shifted offsets
is what became of the slice between the offsets. -/
namespace Outdent

theorem Span.Follows.mono {p q : Nat} {rs : List Span} (h : Follows q rs) (hle : p ≤ q) :
    Follows p rs := by
  cases rs with
  | nil => trivial
  | cons r rs => exact ⟨Nat.le_trans hle h.1, h.2⟩

theorem Span.Follows.shrink {p : Nat} {rs ss : List Span} (h : Follows p rs)
    (hw : List.Forall₂ Span.Within ss rs) : Follows p ss := by
  induction hw generalizing p with
  | nil => trivial
  | cons hsr _ ih => exact ⟨Nat.le_trans h.1 hsr.1, ih (h.2.mono hsr.2)⟩

namespace Syntax

theorem forall₂_interleave {R : Span → Span → Prop} {ss ss' hs hs' : List Span}
    (hss : List.Forall₂ R ss ss') (hhs : List.Forall₂ R hs hs') :
    List.Forall₂ R (interleave ss hs) (interleave ss' hs') := by
  induction hss generalizing hs hs' with
  | nil =>
    cases hhs with
    | nil => simp [interleave]
    | cons h t => simpa [interleave] using ⟨h, t⟩
  | cons h t ih =>
    cases hhs with
    | nil => simpa [interleave] using ⟨h, t⟩
    | cons h' t' => simpa [interleave] using ⟨h, h', ih t'⟩

theorem map_interleave (f : Span → Span) (ss hs : List Span) :
    (interleave ss hs).map f = interleave (ss.map f) (hs.map f) := by
  fun_induction interleave ss hs with
  | case1 s ss h hs ih => simp [interleave, ih]
  | case2 ss => simp [interleave]
  | case3 hs => cases hs <;> rfl

theorem Sequence.shrink {start stop : Nat} {rs ss : List Span} (h : Sequence start stop rs)
    (hw : List.Forall₂ Span.Within ss rs) : Sequence start stop ss :=
  Span.Follows.shrink h (List.rel_append hw (.cons (Span.Within.refl _) .nil))

theorem Siblings.shrink {α : Type} {r : Span} {xs : List α} {f g : α → Span}
    (h : Siblings r (xs.map f)) (hw : ∀ x ∈ xs, (g x).Within (f x)) : Siblings r (xs.map g) := by
  constructor
  · intro s hs
    obtain ⟨x, hx, rfl⟩ := List.mem_map.mp hs
    exact (hw x hx).trans (h.within _ (List.mem_map_of_mem hx))
  · refine List.pairwise_map.mpr ((List.pairwise_map.mp h.apart).imp_of_mem fun hx hy hxy => ?_)
    exact ((hxy.of_within (hw _ hx)).symm.of_within (hw _ hy)).symm

end Syntax

namespace Edit

/-- The offset in the result at which what becomes of an offset of the document stands. -/
def shift (es : List Edit) (text : List Char) (o : Nat) : Nat :=
  Text.byteLength (emittedBetween es text 0 o)

def shiftSpan (es : List Edit) (text : List Char) (r : Span) : Span :=
  ⟨shift es text r.start, shift es text r.stop⟩

variable {es : List Edit} {text : List Char} {a b : Nat}

def outcome (es : List Edit) (text : List Char) : List Char :=
  emittedBetween es text 0 (Text.byteLength text)

theorem le_byteLength_of_isBoundary (ha : Text.isBoundary a text = true) :
    a ≤ Text.byteLength text := by
  obtain ⟨xs, ys, rfl, rfl⟩ := Text.isBoundary_iff.mp ha
  rw [Text.byteLength_append]
  exact Nat.le_add_right _ _

theorem outcome_eq (ha : Text.isBoundary a text = true) (hb : Text.isBoundary b text = true)
    (hab : a ≤ b) : outcome es text = emittedBetween es text 0 a ++ emittedBetween es text a b ++
      emittedBetween es text b (Text.byteLength text) := by
  have hend := Text.isBoundary_end text
  rw [outcome, emittedBetween_append (Text.isBoundary_zero text) hb hend (Nat.zero_le b)
    (le_byteLength_of_isBoundary hb), emittedBetween_append (Text.isBoundary_zero text) ha hb
    (Nat.zero_le a) hab]

theorem shift_eq_add (ha : Text.isBoundary a text = true) (hb : Text.isBoundary b text = true)
    (hab : a ≤ b) : shift es text b =
      shift es text a + Text.byteLength (emittedBetween es text a b) := by
  rw [shift, emittedBetween_append (Text.isBoundary_zero text) ha hb (Nat.zero_le a) hab,
    Text.byteLength_append, shift]

theorem shift_mono (ha : Text.isBoundary a text = true) (hb : Text.isBoundary b text = true)
    (hab : a ≤ b) : shift es text a ≤ shift es text b := by
  rw [shift_eq_add ha hb hab]
  exact Nat.le_add_right _ _

theorem slice_shift (ha : Text.isBoundary a text = true) (hb : Text.isBoundary b text = true)
    (hab : a ≤ b) : Text.slice (shift es text a) (shift es text b) (outcome es text) =
      emittedBetween es text a b := by
  rw [outcome_eq ha hb hab, shift_eq_add ha hb hab, shift, Text.slice_middle]

theorem isBoundary_shift (ha : Text.isBoundary a text = true) :
    Text.isBoundary (shift es text a) (outcome es text) = true := by
  rw [outcome_eq ha ha (Nat.le_refl a), List.append_assoc]
  exact Text.isBoundary_byteLength _ _

theorem shiftSpan_valid {r : Span} (h : r.isValidIn text = true) :
    (shiftSpan es text r).isValidIn (outcome es text) = true := by
  obtain ⟨hle, -, hstart, hstop⟩ := Span.isValidIn_iff.mp h
  exact Span.isValidIn_iff.mpr ⟨shift_mono hstart hstop hle,
    le_byteLength_of_isBoundary (isBoundary_shift hstop), isBoundary_shift hstart,
    isBoundary_shift hstop⟩

theorem shiftSpan_within {r s : Span} (hr : r.isValidIn text = true) (hs : s.isValidIn text = true)
    (h : r.Within s) : (shiftSpan es text r).Within (shiftSpan es text s) := by
  obtain ⟨-, -, hrstart, hrstop⟩ := Span.isValidIn_iff.mp hr
  obtain ⟨-, -, hsstart, hsstop⟩ := Span.isValidIn_iff.mp hs
  exact ⟨shift_mono hsstart hrstart h.1, shift_mono hrstop hsstop h.2⟩

theorem shiftSpan_apart {r s : Span} (hr : r.isValidIn text = true) (hs : s.isValidIn text = true)
    (h : r.Apart s) : (shiftSpan es text r).Apart (shiftSpan es text s) := by
  obtain ⟨-, -, hrstart, hrstop⟩ := Span.isValidIn_iff.mp hr
  obtain ⟨-, -, hsstart, hsstop⟩ := Span.isValidIn_iff.mp hs
  exact h.imp (shift_mono hrstop hsstart) (shift_mono hsstop hrstart)

theorem siblings_shift {r : Span} {rs : List Span} (hr : r.isValidIn text = true)
    (hrs : ∀ s ∈ rs, s.isValidIn text = true) (h : Syntax.Siblings r rs) :
    Syntax.Siblings (shiftSpan es text r) (rs.map (shiftSpan es text)) := by
  constructor
  · intro s hs
    obtain ⟨t, ht, rfl⟩ := List.mem_map.mp hs
    exact shiftSpan_within (hrs t ht) hr (h.within t ht)
  · exact List.pairwise_map.mpr
      (h.apart.imp_of_mem fun hs ht hst => shiftSpan_apart (hrs _ hs) (hrs _ ht) hst)

theorem follows_shift {rs : List Span} (ha : Text.isBoundary a text = true)
    (hrs : ∀ s ∈ rs, s.isValidIn text = true) (h : Span.Follows a rs) :
    Span.Follows (shift es text a) (rs.map (shiftSpan es text)) := by
  induction rs generalizing a with
  | nil => trivial
  | cons r rs ih =>
    obtain ⟨-, -, hstart, hstop⟩ := Span.isValidIn_iff.mp (hrs r List.mem_cons_self)
    exact ⟨shift_mono ha hstart h.1,
      ih hstop (fun s hs => hrs s (List.mem_cons_of_mem _ hs)) h.2⟩

theorem sequence_shift {r : Span} {rs : List Span} (hr : r.isValidIn text = true)
    (hrs : ∀ s ∈ rs, s.isValidIn text = true) (h : Syntax.Sequence r.start r.stop rs) :
    Syntax.Sequence (shift es text r.start) (shift es text r.stop)
      (rs.map (shiftSpan es text)) := by
  obtain ⟨-, hlen, hstart, hstop⟩ := Span.isValidIn_iff.mp hr
  have hrs' : ∀ s ∈ rs ++ [⟨r.stop, r.stop⟩], s.isValidIn text = true := by
    intro s hs
    rcases List.mem_append.mp hs with hs | hs
    · exact hrs s hs
    · rw [List.mem_singleton.mp hs]
      exact Span.isValidIn_iff.mpr ⟨Nat.le_refl _, hlen, hstop, hstop⟩
  have hseq : Span.Follows (shift es text r.start)
      ((rs ++ [(⟨r.stop, r.stop⟩ : Span)]).map (shiftSpan es text)) :=
    follows_shift hstart hrs' h
  rw [List.map_append] at hseq
  exact hseq

end Edit

end Outdent
