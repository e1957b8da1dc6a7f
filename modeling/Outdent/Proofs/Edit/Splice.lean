import Mathlib.Data.List.Basic
import Outdent.Proofs.Edit.Emission
import Outdent.Proofs.Edit.Refusal
import Outdent.Proofs.Edit.Sorting
import Outdent.Proofs.Text.Encoding
/-! # Edits as splices

Accepted edits are applied in one pass from the front. The result is that of putting their texts in
one after another, the last edit first, so that no splice moves the bytes that a later one is
about. Read from the front, every byte of the document stands behind the insertions at its place
and behind the edit that starts there, unless an edit takes it. -/
namespace Outdent

open Glob (bytes)

namespace Edit

def splice (e : Edit) (document : List UInt8) : List UInt8 :=
  document.take e.range.start ++ bytes e.replacement ++ document.drop e.range.stop

/-- The texts that are inserted at a place and take nothing, in the order they came in. -/
def insertedAt (es : List Edit) (place : Nat) : List UInt8 :=
  (es.filter fun e => decide (e.range = ⟨place, place⟩)).flatMap fun e => bytes e.replacement

/-- The texts of the edits that take bytes from a place on. -/
def begunAt (es : List Edit) (place : Nat) : List UInt8 :=
  (es.filter fun e => decide (e.range.start = place ∧ place < e.range.stop)).flatMap
    fun e => bytes e.replacement

/-- The byte of a document at a place, if there is one and no edit takes it. -/
def keptAt (es : List Edit) (document : List UInt8) (place : Nat) : List UInt8 :=
  if ∃ e ∈ es, e.range.Covers place then [] else document[place]?.toList

def wovenAt (es : List Edit) (document : List UInt8) (place : Nat) : List UInt8 :=
  insertedAt es place ++ begunAt es place ++ keptAt es document place

/-- A document with the texts of edits between its bytes, place by place up to its end. -/
def woven (es : List Edit) (document : List UInt8) : List UInt8 :=
  (List.range (document.length + 1)).flatMap (wovenAt es document)

variable {text : List Char} {es : List Edit}

theorem CutAt.splice_eq {xs before old after : List Char} {e : Edit}
    (h : CutAt text xs e before old after) (back : List Char) :
    splice e (bytes (xs ++ before ++ old ++ back)) =
      bytes (xs ++ before ++ e.replacement ++ back) := by
  have hstart : (bytes (xs ++ before)).length = e.range.start := by rw [Text.length_bytes, h.start]
  have hstop : (bytes (xs ++ before ++ old)).length = e.range.stop := by
    rw [Text.length_bytes, h.stop]
  have htake : (bytes (xs ++ before ++ old ++ back)).take e.range.start = bytes (xs ++ before) := by
    rw [List.append_assoc (xs ++ before), Text.bytes_append, ← hstart, List.take_left']
    rfl
  have hdrop : (bytes (xs ++ before ++ old ++ back)).drop e.range.stop = bytes back := by
    rw [Text.bytes_append, ← hstop, List.drop_left']
    rfl
  rw [splice, htake, hdrop, Text.bytes_append _ back, Text.bytes_append _ e.replacement]

/-- Along edits in sequence, splicing from the last to the first leaves what stands in front of them
and gives what the pieces of the rest do. -/
theorem foldr_splice (xs : List Char) {rest : List Char} (htext : text = xs ++ rest)
    (hv : ∀ e ∈ es, e.range.isValidIn text = true)
    (hf : Span.Follows (Text.byteLength xs) (es.map range)) :
    es.foldr splice (bytes text) =
      bytes (xs ++ (pieces (Text.byteLength xs) rest es).flatMap Piece.output) := by
  induction es generalizing xs rest with
  | nil => simp [pieces, Piece.output, htext]
  | cons e es ih =>
    obtain ⟨before, old, after, rfl, hcut⟩ := exists_cutAt htext (hv e List.mem_cons_self) hf.1
    have hlater := ih (xs ++ before ++ old) hcut.text_eq
      (fun f hf => hv f (List.mem_cons_of_mem _ hf)) (hcut.stop ▸ hf.2)
    rw [hcut.stop] at hlater
    rw [List.foldr_cons, hlater, hcut.splice_eq, hcut.pieces_cons]
    simp [Piece.output]

theorem flatMap_getElem? {α : Type} (front middle back : List α) :
    (List.range' front.length middle.length).flatMap
      (fun i => (front ++ middle ++ back)[i]?.toList) = middle := by
  induction middle generalizing front with
  | nil => rfl
  | cons x xs ih =>
    have hfirst : (front ++ x :: xs ++ back)[front.length]? = some x := by simp
    have hrest := ih (front ++ [x])
    simp only [List.length_append, List.length_singleton, List.append_assoc,
      List.singleton_append] at hrest
    rw [List.length_cons, List.range'_succ, List.flatMap_cons, hfirst]
    simpa using hrest

section Weaving

variable {document : List UInt8} {place : Nat} {e : Edit}

theorem keptAt_of_not_covers (h : ∀ e ∈ es, ¬ e.range.Covers place) :
    keptAt es document place = document[place]?.toList := by
  rw [keptAt, if_neg]
  rintro ⟨e, he, hcov⟩
  exact h e he hcov

theorem insertedAt_of_ne (h : ∀ e ∈ es, e.range.start ≠ place) : insertedAt es place = [] := by
  have hnone : es.filter (fun e => decide (e.range = ⟨place, place⟩)) = [] := by
    rw [List.filter_eq_nil_iff]
    intro e he heq
    exact h e he (by rw [of_decide_eq_true heq])
  rw [insertedAt, hnone, List.flatMap_nil]

theorem begunAt_of_ne (h : ∀ e ∈ es, e.range.start ≠ place) : begunAt es place = [] := by
  have hnone : es.filter
      (fun e => decide (e.range.start = place ∧ place < e.range.stop)) = [] := by
    rw [List.filter_eq_nil_iff]
    intro e he heq
    exact h e he (of_decide_eq_true heq).1
  rw [begunAt, hnone, List.flatMap_nil]

theorem wovenAt_of_later (h : ∀ e ∈ es, place < e.range.start) :
    wovenAt es document place = document[place]?.toList := by
  have hne : ∀ e ∈ es, e.range.start ≠ place := fun e he => Nat.ne_of_gt (h e he)
  rw [wovenAt, insertedAt_of_ne hne, begunAt_of_ne hne, keptAt_of_not_covers]
  · rfl
  · intro e he hcov
    exact Nat.not_lt.mpr hcov.1 (h e he)

theorem wovenAt_cons_of_ne (hne : e.range.start ≠ place) (hcov : ¬ e.range.Covers place) :
    wovenAt (e :: es) document place = wovenAt es document place := by
  have hrange : e.range ≠ ⟨place, place⟩ := fun h => hne (by rw [h])
  simp [wovenAt, insertedAt, begunAt, keptAt, hne, hcov, hrange]

theorem wovenAt_cons_of_empty (h : e.range = ⟨place, place⟩) :
    wovenAt (e :: es) document place = bytes e.replacement ++ wovenAt es document place := by
  have hcov : ¬ e.range.Covers place := by
    rw [h]
    exact fun hcov => Nat.lt_irrefl _ hcov.2
  have hcov' : ¬ (⟨place, place⟩ : Span).Covers place := h ▸ hcov
  simp [wovenAt, insertedAt, begunAt, keptAt, h, hcov']

theorem wovenAt_cons_of_start (hstart : e.range.start = place) (hstop : place < e.range.stop)
    (hlater : ∀ f ∈ es, place < f.range.start) :
    wovenAt (e :: es) document place = bytes e.replacement := by
  have hne : ∀ f ∈ es, f.range.start ≠ place := fun f hf => Nat.ne_of_gt (hlater f hf)
  have hrange : e.range ≠ ⟨place, place⟩ := by
    intro h
    rw [h] at hstop
    exact Nat.lt_irrefl _ hstop
  have hcov : ∃ f ∈ e :: es, f.range.Covers place :=
    ⟨e, List.mem_cons_self, Nat.le_of_eq hstart, hstop⟩
  have hinserted : insertedAt (e :: es) place = insertedAt es place := by
    simp [insertedAt, hrange]
  have hbegun : begunAt (e :: es) place = bytes e.replacement ++ begunAt es place := by
    simp [begunAt, hstart, hstop]
  rw [wovenAt, hinserted, hbegun, insertedAt_of_ne hne, begunAt_of_ne hne, keptAt, if_pos hcov]
  simp

theorem wovenAt_cons_inside (hstart : e.range.start < place) (hstop : place < e.range.stop)
    (hlater : ∀ f ∈ es, place < f.range.start) : wovenAt (e :: es) document place = [] := by
  have hne : ∀ f ∈ e :: es, f.range.start ≠ place := by
    intro f hf
    rcases List.mem_cons.mp hf with rfl | hf
    · exact Nat.ne_of_lt hstart
    · exact Nat.ne_of_gt (hlater f hf)
  have hcov : ∃ f ∈ e :: es, f.range.Covers place :=
    ⟨e, List.mem_cons_self, Nat.le_of_lt hstart, hstop⟩
  rw [wovenAt, insertedAt_of_ne hne, begunAt_of_ne hne, keptAt, if_pos hcov]
  rfl

theorem flatMap_wovenAt_behind {k : Nat} (hstart : e.range.start < k) (hstop : e.range.stop ≤ k)
    (count : Nat) :
    (List.range' k count).flatMap (wovenAt (e :: es) document) =
      (List.range' k count).flatMap (wovenAt es document) := by
  apply List.flatMap_congr
  intro place hplace
  have hle := (List.mem_range'_1.mp hplace).1
  apply wovenAt_cons_of_ne
  · omega
  · intro hcov
    exact Nat.not_lt.mpr (Nat.le_trans hstop hle) hcov.2

theorem flatMap_wovenAt_inserted (count : Nat) (h : e.range.start = e.range.stop) :
    (List.range' e.range.stop (count + 1)).flatMap (wovenAt (e :: es) document) =
      bytes e.replacement ++
        (List.range' e.range.stop (count + 1)).flatMap (wovenAt es document) := by
  have hrange : e.range = ⟨e.range.stop, e.range.stop⟩ := by
    conv => rhs; rw [← h]
    exact congrArg (Span.mk e.range.start) h.symm
  rw [List.range'_succ, List.flatMap_cons, List.flatMap_cons, wovenAt_cons_of_empty hrange,
    flatMap_wovenAt_behind (by omega) (Nat.le_succ _), List.append_assoc]

theorem flatMap_wovenAt_replaced (count : Nat) (h : e.range.start < e.range.stop)
    (hlater : ∀ f ∈ es, e.range.stop ≤ f.range.start) :
    (List.range' e.range.start (e.range.stop - e.range.start + count)).flatMap
        (wovenAt (e :: es) document) =
      bytes e.replacement ++ (List.range' e.range.stop count).flatMap (wovenAt es document) := by
  obtain ⟨width, hwidth⟩ : ∃ width, e.range.stop - e.range.start = width + 1 :=
    ⟨e.range.stop - e.range.start - 1, by omega⟩
  have hfirst : wovenAt (e :: es) document e.range.start = bytes e.replacement :=
    wovenAt_cons_of_start rfl h fun f hf => Nat.lt_of_lt_of_le h (hlater f hf)
  have hinside : (List.range' (e.range.start + 1) width).flatMap
      (wovenAt (e :: es) document) = [] := by
    rw [List.flatMap_eq_nil_iff]
    intro place hplace
    have hbounds := List.mem_range'_1.mp hplace
    apply wovenAt_cons_inside
    · omega
    · omega
    · intro f hf
      have := hlater f hf
      omega
  have hstop : e.range.start + (width + 1) = e.range.stop := by omega
  rw [hwidth, ← List.range'_append_1, List.range'_succ, hstop, List.flatMap_append,
    List.flatMap_cons, hfirst, hinside, flatMap_wovenAt_behind h (Nat.le_refl _), List.append_nil]

theorem flatMap_wovenAt_cons (count : Nat) (hforward : e.range.start ≤ e.range.stop)
    (hlater : ∀ f ∈ es, e.range.stop ≤ f.range.start) :
    (List.range' e.range.start (e.range.stop - e.range.start + (count + 1))).flatMap
        (wovenAt (e :: es) document) =
      bytes e.replacement ++
        (List.range' e.range.stop (count + 1)).flatMap (wovenAt es document) := by
  rcases Nat.eq_or_lt_of_le hforward with heq | hlt
  · rw [heq, Nat.sub_self, Nat.zero_add]
    exact flatMap_wovenAt_inserted count heq
  · exact flatMap_wovenAt_replaced (count + 1) hlt hlater

end Weaving

theorem flatMap_wovenAt_before {xs before after : List Char} (htext : text = xs ++ before ++ after)
    (h : ∀ e ∈ es, Text.byteLength xs + Text.byteLength before ≤ e.range.start) :
    (List.range' (Text.byteLength xs) (Text.byteLength before)).flatMap
      (wovenAt es (bytes text)) = bytes before := by
  have hkept := flatMap_getElem? (bytes xs) (bytes before) (bytes after)
  rw [← Text.bytes_append, ← Text.bytes_append, ← htext, Text.length_bytes,
    Text.length_bytes] at hkept
  conv => rhs; rw [← hkept]
  apply List.flatMap_congr
  intro place hplace
  have hlt := (List.mem_range'_1.mp hplace).2
  exact wovenAt_of_later fun e he => Nat.lt_of_lt_of_le hlt (h e he)

theorem flatMap_wovenAt (xs : List Char) {rest : List Char} (htext : text = xs ++ rest)
    (hv : ∀ e ∈ es, e.range.isValidIn text = true)
    (hf : Span.Follows (Text.byteLength xs) (es.map range)) :
    bytes ((pieces (Text.byteLength xs) rest es).flatMap Piece.output) =
      (List.range' (Text.byteLength xs) (Text.byteLength rest + 1)).flatMap
        (wovenAt es (bytes text)) := by
  induction es generalizing xs rest with
  | nil =>
    have hlength : (bytes text).length = Text.byteLength xs + Text.byteLength rest := by
      rw [Text.length_bytes, htext, Text.byteLength_append]
    have hend : wovenAt [] (bytes text) (Text.byteLength xs + Text.byteLength rest) = [] := by
      rw [wovenAt_of_later (by simp), List.getElem?_eq_none (Nat.le_of_eq hlength)]
      rfl
    rw [← List.append_nil (xs ++ rest)] at htext
    rw [← List.range'_append_1, List.flatMap_append, flatMap_wovenAt_before htext (by simp)]
    simp [pieces, Piece.output, hend]
  | cons e es ih =>
    obtain ⟨before, old, after, rfl, hcut⟩ := exists_cutAt htext (hv e List.mem_cons_self) hf.1
    have hforward := (Span.isValidIn_iff.mp (hv e List.mem_cons_self)).1
    have hv' : ∀ f ∈ es, f.range.isValidIn text = true :=
      fun f hf => hv f (List.mem_cons_of_mem _ hf)
    have hlater : ∀ f ∈ es, e.range.stop ≤ f.range.start := start_le_of_follows hv' hf.2
    have hnext := ih (xs ++ before ++ old) hcut.text_eq hv' (hcut.stop ▸ hf.2)
    rw [hcut.stop] at hnext
    have hstart : Text.byteLength xs + Text.byteLength before = e.range.start := by
      rw [← Text.byteLength_append, hcut.start]
    have hold : e.range.stop - e.range.start = Text.byteLength old := by
      rw [← hcut.start, ← hcut.stop, Text.byteLength_append _ old, Nat.add_sub_cancel_left]
    have hlength : Text.byteLength (before ++ (old ++ after)) + 1 = Text.byteLength before +
        (e.range.stop - e.range.start + (Text.byteLength after + 1)) := by
      rw [hold, Text.byteLength_append, Text.byteLength_append]
      omega
    rw [← List.append_assoc] at htext
    have hbefore : (List.range' (Text.byteLength xs) (Text.byteLength before)).flatMap
        (wovenAt (e :: es) (bytes text)) = bytes before := by
      apply flatMap_wovenAt_before htext
      intro f hf
      rcases List.mem_cons.mp hf with rfl | hf
      · exact Nat.le_of_eq hstart
      · exact Nat.le_trans (Nat.le_of_eq hstart) (Nat.le_trans hforward (hlater f hf))
    rw [hlength, ← List.range'_append_1, List.flatMap_append, hbefore, hstart,
      flatMap_wovenAt_cons _ hforward hlater, ← hnext, hcut.pieces_cons]
    simp [Piece.output, Text.bytes_append]

/-- Of accepted edits at most one takes bytes from a place on, so their order is no matter. -/
theorem begunAt_sort (h : Accepted text es) (place : Nat) :
    begunAt (sort es) place = begunAt es place := by
  have hperm := (perm_sort es).filter
    fun e => decide (e.range.start = place ∧ place < e.range.stop)
  have hapart := h.apart.filter fun e => decide (e.range.start = place ∧ place < e.range.stop)
  have hbegun : ∀ e ∈ es.filter fun e => decide (e.range.start = place ∧ place < e.range.stop),
      e.range.start = place ∧ place < e.range.stop :=
    fun e he => of_decide_eq_true (List.mem_filter.mp he).2
  unfold begunAt
  generalize es.filter (fun e => decide (e.range.start = place ∧ place < e.range.stop)) = begun
    at hperm hapart hbegun ⊢
  match begun with
  | [] => rw [List.perm_nil.mp hperm]
  | [e] => rw [List.perm_singleton.mp hperm]
  | e :: f :: rest =>
    have he := hbegun e List.mem_cons_self
    have hf := hbegun f (List.mem_cons_of_mem _ List.mem_cons_self)
    rcases List.rel_of_pairwise_cons hapart List.mem_cons_self with hle | hle <;> omega

theorem woven_sort (h : Accepted text es) (document : List UInt8) :
    woven (sort es) document = woven es document := by
  unfold woven
  refine List.flatMap_congr fun place _ => ?_
  have hinserted : insertedAt (sort es) place = insertedAt es place := by
    rw [insertedAt, filter_sort, insertedAt]
  have hkept : keptAt (sort es) document place = keptAt es document place := by
    simp only [keptAt, mem_sort]
  rw [wovenAt, hinserted, begunAt_sort h, hkept, wovenAt]

/-- The result of accepted edits is that of splicing their texts in one after another, from the last
edit in order to the first. Each byte of the document that no edit takes stands in it once and in
order, behind what is inserted at its place, in the order the insertions came in; and behind those
stands the text of the edit that takes bytes from there on. -/
theorem splices_of_ofEdits {id : String} {resolution : Option Resolution} {edited : Edited}
    (h : Edited.ofEdits id text es resolution = .ok edited) :
    bytes edited.code =
        (es.mergeSort fun a b => a.range.le b.range).foldr splice (bytes text) ∧
      bytes edited.code = woven es (bytes text) := by
  obtain ⟨ps, hcut, rfl⟩ := Edited.ofEdits_eq_ok_iff.mp h
  have haccepted := accepted_of_cut hcut
  obtain ⟨hcheck, rfl⟩ := cut_eq_ok_iff.mp hcut
  obtain ⟨hv, hf⟩ := check_eq_ok_iff.mp hcheck
  constructor
  · have hspliced := foldr_splice [] rfl hv hf
    rw [← sort_eq_mergeSort]
    exact hspliced.symm
  · have hwoven := flatMap_wovenAt [] rfl hv hf
    rw [← woven_sort haccepted, woven, List.range_eq_range', Text.length_bytes]
    exact hwoven

def crowdedEdits : List Edit :=
  [.replace ⟨1, 3⟩ "u".toList, .replace ⟨1, 1⟩ "x".toList, .replace ⟨1, 1⟩ "yz".toList,
    .delete ⟨3, 4⟩]

theorem splices_of_crowdedEdits :
    Edited.ofEdits "a.ts" "aébc".toList crowdedEdits none = .ok ⟨"axyzuc".toList, none⟩ ∧
      bytes "axyzuc".toList = (crowdedEdits.mergeSort fun a b => a.range.le b.range).foldr splice
        (bytes "aébc".toList) ∧
      bytes "axyzuc".toList = woven crowdedEdits (bytes "aébc".toList) := by
  have hedited : Edited.ofEdits "a.ts" "aébc".toList crowdedEdits none =
      .ok ⟨"axyzuc".toList, none⟩ := by decide +kernel
  exact ⟨hedited, splices_of_ofEdits hedited⟩

end Edit

end Outdent
