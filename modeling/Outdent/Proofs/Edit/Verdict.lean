import Outdent.Proofs.Edit.Refusal
import Outdent.Proofs.Edit.Sorting
import Outdent.Proofs.Text.Encoding
/-! # The verdict on edits

Edits are taken exactly if every range is a span of the document and no two of them share a byte or
lie within one another. Otherwise the first one in order that is no span, or that starts before the
one in front of it ends, is the fault that is told. -/
namespace Outdent.Edit

open Glob (bytes)

variable {text : List Char} {es front : List Edit} {e : Edit} {previous : Option Span}
  {fault : EditError}

/-- Edits in order that are spans and start at or behind the end of the one in front of them. -/
structure Flawless (text : List Char) (es : List Edit) : Prop where
  spans : ∀ e ∈ es, e.range.IsSpanOf text
  behind : Span.Follows 0 (es.map range)

/-- The fault of edits in order: that of the first one that has any. -/
inductive FirstFault (text : List Char) : List Edit → EditError → Prop where
  | invalid {front back : List Edit} {e : Edit} : Flawless text front →
      ¬ e.range.IsSpanOf text →
      FirstFault text (front ++ e :: back) (.invalid e.range (bytes text).length)
  | overlapping {front back : List Edit} {p e : Edit} : Flawless text (front ++ [p]) →
      e.range.IsSpanOf text → e.range.start < p.range.stop →
      FirstFault text (front ++ p :: e :: back) (.overlapping p.range e.range)

theorem check_none_eq_ok_iff : check text none es = .ok () ↔ Flawless text es := by
  rw [check_eq_ok_iff]
  simp only [Span.isValidIn_iff_isSpanOf]
  constructor
  · rintro ⟨hspans, hbehind⟩
    exact ⟨hspans, hbehind⟩
  · rintro ⟨hspans, hbehind⟩
    exact ⟨hspans, hbehind⟩

theorem check_cons_of_invalid (h : ¬ e.range.IsSpanOf text) :
    check text previous (e :: es) = .error (.invalid e.range (bytes text).length) := by
  rw [← Span.isValidIn_iff_isSpanOf] at h
  rw [Text.length_bytes]
  cases previous with
  | none => simp only [check, if_neg h]
  | some p => simp only [check, if_neg h]

theorem check_cons_of_overlapping {p : Span} (h : e.range.IsSpanOf text)
    (hp : e.range.start < p.stop) :
    check text (some p) (e :: es) = .error (.overlapping p e.range) := by
  rw [← Span.isValidIn_iff_isSpanOf] at h
  simp only [check, if_pos h, if_pos hp]

theorem check_cons_of_behind (h : e.range.IsSpanOf text)
    (hp : ∀ p, previous = some p → p.stop ≤ e.range.start) :
    check text previous (e :: es) = check text (some e.range) es := by
  rw [← Span.isValidIn_iff_isSpanOf] at h
  cases previous with
  | none => simp only [check, if_pos h]
  | some p => simp only [check, if_pos h, if_neg (Nat.not_lt.mpr (hp p rfl))]

theorem check_append (h : check text previous front = .ok ()) (es : List Edit) :
    check text previous (front ++ es) =
      check text ((front.getLast?.map range).or previous) es := by
  induction front generalizing previous with
  | nil => rfl
  | cons e front ih =>
    obtain ⟨hvalid, hfollows⟩ := check_eq_ok_iff.mp h
    have hspan := Span.isValidIn_iff_isSpanOf.mp (hvalid e List.mem_cons_self)
    have hbehind : ∀ p, previous = some p → p.stop ≤ e.range.start := by
      rintro p rfl
      exact hfollows.1
    have hrest : check text (some e.range) front = .ok () := by
      rwa [check_cons_of_behind hspan hbehind] at h
    rw [List.cons_append, check_cons_of_behind hspan hbehind, ih hrest]
    cases hlast : front.getLast? <;> simp [List.getLast?_cons, hlast]

theorem Flawless.concat (h : Flawless text front) (hspan : e.range.IsSpanOf text)
    (hbehind : ∀ p, front.getLast? = some p → p.range.stop ≤ e.range.start) :
    Flawless text (front ++ [e]) := by
  have hfront := check_none_eq_ok_iff.mpr h
  rw [← check_none_eq_ok_iff, check_append hfront, Option.or_none,
    check_cons_of_behind hspan, check]
  intro p hp
  obtain ⟨f, hf, rfl⟩ := Option.map_eq_some_iff.mp hp
  exact hbehind f hf

theorem firstFault_of_check (hfront : Flawless text front)
    (h : check text (front.getLast?.map range) es = .error fault) :
    FirstFault text (front ++ es) fault := by
  induction es generalizing front with
  | nil => simp [check] at h
  | cons e es ih =>
    by_cases hspan : e.range.IsSpanOf text
    · by_cases hover : ∃ p, front.getLast? = some p ∧ e.range.start < p.range.stop
      · obtain ⟨p, hlast, hp⟩ := hover
        obtain ⟨init, rfl⟩ := List.getLast?_eq_some_iff.mp hlast
        rw [hlast, Option.map_some, check_cons_of_overlapping hspan hp] at h
        rw [← Except.error.inj h, List.append_assoc]
        exact .overlapping hfront hspan hp
      · have hbehind : ∀ p, front.getLast? = some p → p.range.stop ≤ e.range.start :=
          fun p hp => Nat.not_lt.mp fun hlt => hover ⟨p, hp, hlt⟩
        have hprevious : ∀ p, front.getLast?.map range = some p → p.stop ≤ e.range.start := by
          intro p hp
          obtain ⟨f, hf, rfl⟩ := Option.map_eq_some_iff.mp hp
          exact hbehind f hf
        have hnext := ih (hfront.concat hspan hbehind) (by
          rwa [List.getLast?_concat, Option.map_some, ← check_cons_of_behind hspan hprevious])
        rwa [List.append_assoc] at hnext
    · rw [check_cons_of_invalid hspan] at h
      rw [← Except.error.inj h]
      exact .invalid hfront hspan

theorem check_eq_error_iff : check text none es = .error fault ↔ FirstFault text es fault := by
  constructor
  · intro h
    have hnone : Flawless text [] := ⟨by simp, trivial⟩
    exact firstFault_of_check hnone h
  · intro h
    cases h with
    | invalid hfront hspan =>
      rw [check_append (check_none_eq_ok_iff.mpr hfront), check_cons_of_invalid hspan]
    | @overlapping front back p e hfront hspan hp =>
      have hcheck := check_append (check_none_eq_ok_iff.mpr hfront) (e :: back)
      rw [List.append_assoc] at hcheck
      rw [← List.singleton_append, hcheck]
      simpa using check_cons_of_overlapping hspan hp

/-- Edits that stand apart in one text are never refused for an overlap in another one. -/
theorem cut_ne_overlapping {other : List Char} (h : Accepted text es) (a b : Span) :
    cut other es ≠ .error (.overlapping a b) := by
  intro hcut
  have hfault := check_eq_error_iff.mp (cut_eq_error_iff.mp hcut)
  generalize hsorted : sort es = sorted at hfault
  cases hfault with
  | @overlapping front back p e _ _ hover =>
    have hforward : ∀ r ∈ (sort es).map range, r.start ≤ r.stop := forward_of_valid h.sort.valid
    have hordered := h.follows_sort.pairwise hforward
    rw [hsorted, List.map_append, List.pairwise_append] at hordered
    have hpe : p.range.stop ≤ e.range.start :=
      (List.pairwise_cons.mp hordered.2.1).1 e.range List.mem_cons_self
    omega

/-- Edits are taken exactly if they are spans that stand apart pair by pair, and refused for the
first fault of the edits sorted by start and end, those of one range in the order they came in. -/
theorem verdict_of_edits (id : String) (text : List Char) (es : List Edit)
    (resolution : Option Resolution) :
    ((∃ edited, Edited.ofEdits id text es resolution = .ok edited) ↔
      (∀ e ∈ es, e.range.IsSpanOf text) ∧
        es.Pairwise fun a b => a.range.stop ≤ b.range.start ∨ b.range.stop ≤ a.range.start) ∧
    ∀ fault, Edited.ofEdits id text es resolution = .error fault ↔
      FirstFault text (es.mergeSort fun a b => a.range.le b.range) fault := by
  constructor
  · have htaken : (∃ edited, Edited.ofEdits id text es resolution = .ok edited) ↔
        Accepted text es := by
      rw [← exists_cut_iff]
      constructor
      · rintro ⟨edited, h⟩
        obtain ⟨ps, hcut, -⟩ := Edited.ofEdits_eq_ok_iff.mp h
        exact ⟨ps, hcut⟩
      · rintro ⟨ps, hcut⟩
        exact ⟨_, Edited.ofEdits_eq_ok_iff.mpr ⟨ps, hcut, rfl⟩⟩
    rw [htaken]
    simp only [← Span.isValidIn_iff_isSpanOf]
    constructor
    · rintro ⟨hvalid, hapart⟩
      exact ⟨hvalid, hapart⟩
    · rintro ⟨hvalid, hapart⟩
      exact ⟨hvalid, hapart⟩
  · intro fault
    rw [Edited.ofEdits_eq_error_iff, cut_eq_error_iff, check_eq_error_iff, sort_eq_mergeSort]

end Outdent.Edit
