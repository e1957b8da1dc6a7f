import Mathlib.Data.List.Forall2
import Outdent.Proofs.Edit.Length
import Outdent.Proofs.Edit.Refusal
import Outdent.Proofs.Edit.Sorting
/-! # Edits can be undone

The text of an edit stands in the result as far from its place in the document as the edits in front
of it put in more than they take. Putting the old text back there, for every edit, gives the
document again: the pieces of the result are those of the document with old and new exchanged. -/
namespace Outdent.Edit

/-- The bytes of a result that the text of an edit takes up behind the edits in front of it. -/
def occupied (front : List Edit) (e : Edit) : Span :=
  let start := e.range.start + given front - taken front
  ⟨start, start + Text.byteLength e.replacement⟩

/-- For edits in order, those of `front` being done, the edits of the result that put the old text
in the place of the new. -/
def undoAlong (text : List Char) (front : List Edit) : List Edit → List Edit
  | [] => []
  | e :: es =>
    .replace (occupied front e) (Text.slice e.range.start e.range.stop text) ::
      undoAlong text (front ++ [e]) es

def undo (text : List Char) (es : List Edit) : List Edit :=
  undoAlong text [] (es.mergeSort fun a b => a.range.le b.range)

/-- An edit and one of the result that puts back what it took, where its own text stands. -/
def Exchanges (text result : List Char) (e i : Edit) : Prop :=
  Text.slice i.range.start i.range.stop result = e.replacement ∧
    i.replacement = Text.slice e.range.start e.range.stop text

def Piece.flip : Piece → Piece
  | .kept t => .kept t
  | .swapped old new => .swapped new old

theorem flatMap_output_flip (ps : List Piece) :
    (ps.map Piece.flip).flatMap Piece.output = ps.flatMap Piece.original := by
  induction ps with
  | nil => rfl
  | cons p ps ih =>
    rw [List.map_cons, List.flatMap_cons, List.flatMap_cons, ih]
    cases p <;> rfl

namespace CutAt

variable {text xs before old after : List Char} {e : Edit}

theorem isValidIn (h : CutAt text xs e before old after) : e.range.isValidIn text = true := by
  have hstart := Text.isBoundary_byteLength (xs ++ before) (old ++ after)
  have hstop := Text.isBoundary_byteLength (xs ++ before ++ old) after
  rw [h.start, ← List.append_assoc, ← h.text_eq] at hstart
  rw [h.stop, ← h.text_eq] at hstop
  have hforward : e.range.start ≤ e.range.stop := by
    rw [← h.start, ← h.stop, Text.byteLength_append _ old]
    exact Nat.le_add_right _ _
  have hinside : e.range.stop ≤ Text.byteLength text := by
    rw [← h.stop, h.text_eq, Text.byteLength_append _ after]
    exact Nat.le_add_right _ _
  exact Span.isValidIn_iff.mpr ⟨hforward, hinside, hstart, hstop⟩

theorem slice_range (h : CutAt text xs e before old after) :
    Text.slice e.range.start e.range.stop text = old := by
  have hmiddle := Text.slice_middle (xs ++ before) old after
  rwa [← Text.byteLength_append, h.start, h.stop, ← h.text_eq] at hmiddle

theorem undo (h : CutAt text xs e before old after) {front : List Edit} {ys : List Char}
    (back : List Char)
    (hbalance : Text.byteLength ys + taken front = Text.byteLength xs + given front) :
    CutAt (ys ++ before ++ e.replacement ++ back) ys
      (.replace (occupied front e) (Text.slice e.range.start e.range.stop text))
      before e.replacement back := by
  have hstart := h.start
  rw [Text.byteLength_append] at hstart
  have hplace : Text.byteLength (ys ++ before) = e.range.start + given front - taken front := by
    rw [Text.byteLength_append]
    omega
  refine ⟨rfl, hplace, ?_⟩
  rw [Text.byteLength_append _ e.replacement, hplace]
  rfl

end CutAt

/-- Edits of a result that put old text in the place of new from a position on, where the rest of
the result is that of some pieces. -/
structure Undoes (text result : List Char) (position : Nat) (ps : List Piece)
    (es undoing : List Edit) : Prop where
  valid : ∀ i ∈ undoing, i.range.isValidIn result = true
  follows : Span.Follows position (undoing.map range)
  pieces_eq : pieces position (ps.flatMap Piece.output) undoing = ps.map Piece.flip
  exchanged : List.Forall₂ (Exchanges text result) es undoing

variable {text : List Char} {es : List Edit}

theorem undoes_undoAlong {front : List Edit} (xs ys : List Char) {rest result : List Char}
    (htext : text = xs ++ rest) (hv : ∀ e ∈ es, e.range.isValidIn text = true)
    (hf : Span.Follows (Text.byteLength xs) (es.map range))
    (hbalance : Text.byteLength ys + taken front = Text.byteLength xs + given front)
    (hresult : result =
      ys ++ (pieces (Text.byteLength xs) rest es).flatMap Piece.output) :
    Undoes text result (Text.byteLength ys) (pieces (Text.byteLength xs) rest es) es
      (undoAlong text front es) := by
  induction es generalizing front xs ys rest with
  | nil =>
    refine ⟨by simp [undoAlong], trivial, ?_, .nil⟩
    simp [undoAlong, pieces, Piece.output, Piece.flip]
  | cons e es ih =>
    obtain ⟨before, old, after, rfl, hcut⟩ := exists_cutAt htext (hv e List.mem_cons_self) hf.1
    rw [hcut.pieces_cons] at hresult ⊢
    simp only [List.flatMap_cons, Piece.output, ← List.append_assoc] at hresult
    have hback := hcut.undo ((pieces e.range.stop after es).flatMap Piece.output) hbalance
    rw [← hresult] at hback
    have hbalance' : Text.byteLength (ys ++ before ++ e.replacement) + taken (front ++ [e]) =
        Text.byteLength (xs ++ before ++ old) + given (front ++ [e]) := by
      have hlength := hcut.length_eq
      simp only [taken, given, List.map_append, List.map_cons, List.map_nil, List.sum_append,
        List.sum_singleton, Text.byteLength_append] at hbalance ⊢
      omega
    have hlater := ih (xs ++ before ++ old) (ys ++ before ++ e.replacement) hcut.text_eq
      (fun f hf => hv f (List.mem_cons_of_mem _ hf)) (hcut.stop ▸ hf.2) hbalance'
      (by rw [hcut.stop]; exact hresult)
    rw [hcut.stop, hback.stop] at hlater
    constructor
    · intro i hi
      rcases List.mem_cons.mp hi with rfl | hi
      · exact hback.isValidIn
      · exact hlater.valid i hi
    · refine ⟨?_, hlater.follows⟩
      rw [← hback.start, Text.byteLength_append]
      exact Nat.le_add_right _ _
    · have hpieces := hback.pieces_cons (undoAlong text (front ++ [e]) es)
      rw [hlater.pieces_eq] at hpieces
      simp only [List.flatMap_cons, Piece.output, List.map_cons, Piece.flip]
      rw [undoAlong, hpieces, replacement, hcut.slice_range]
    · exact .cons ⟨hback.slice_range, rfl⟩ hlater.exchanged

theorem sort_of_follows {position : Nat} (hv : ∀ e ∈ es, e.range.isValidIn text = true)
    (hf : Span.Follows position (es.map range)) : sort es = es := by
  rw [sort_eq_mergeSort]
  apply List.mergeSort_of_pairwise
  refine (List.pairwise_map.mp (hf.pairwise (forward_of_valid hv))).imp_of_mem ?_
  intro a b ha hb hle
  have hforward := (Span.isValidIn_iff.mp (hv a ha)).1
  have hforward' := (Span.isValidIn_iff.mp (hv b hb)).1
  rw [Span.le_iff]
  omega

theorem Undoes.cut_eq {result : List Char} {ps : List Piece} {undoing : List Edit}
    (h : Undoes text result 0 ps es undoing) (hresult : ps.flatMap Piece.output = result) :
    cut result undoing = .ok (ps.map Piece.flip) := by
  have hsort := sort_of_follows h.valid h.follows
  rw [cut_eq_ok_iff, hsort]
  constructor
  · exact check_eq_ok_iff.mpr ⟨h.valid, h.follows⟩
  · rw [← hresult]
    exact h.pieces_eq

/-- Edits that put old text in the place of new, where the new text of accepted edits stands in the
result, are accepted there and give the document again. -/
theorem undone_of_ofEdits {id : String} {resolution : Option Resolution} {edited : Edited}
    (h : Edited.ofEdits id text es resolution = .ok edited) (id' : String)
    (resolution' : Option Resolution) :
    List.Forall₂ (Exchanges text edited.code) (es.mergeSort fun a b => a.range.le b.range)
        (undo text es) ∧
      ∃ restored, Edited.ofEdits id' edited.code (undo text es) resolution' = .ok restored ∧
        restored.code = text := by
  obtain ⟨ps, hcut, rfl⟩ := Edited.ofEdits_eq_ok_iff.mp h
  obtain ⟨hcheck, rfl⟩ := cut_eq_ok_iff.mp hcut
  obtain ⟨hv, hf⟩ := check_eq_ok_iff.mp hcheck
  have hundoes : Undoes text ((pieces 0 text (sort es)).flatMap Piece.output) 0
      (pieces 0 text (sort es)) (sort es) (undoAlong text [] (sort es)) :=
    undoes_undoAlong [] [] rfl hv hf rfl rfl
  have hback := hundoes.cut_eq rfl
  rw [undo, ← sort_eq_mergeSort]
  refine ⟨hundoes.exchanged, _, Edited.ofEdits_eq_ok_iff.mpr ⟨_, hback, rfl⟩, ?_⟩
  exact (flatMap_output_flip _).trans (flatMap_original_pieces 0 text (sort es))

def adjacentEdits : List Edit := [.replace ⟨3, 3⟩ "x\n".toList, .delete ⟨1, 3⟩, .delete ⟨0, 1⟩]

theorem undone_of_adjacentEdits :
    Edited.ofEdits "a.ts" "aéb".toList adjacentEdits none = .ok ⟨"x\nb".toList, none⟩ ∧
      List.Forall₂ (Exchanges "aéb".toList "x\nb".toList)
        (adjacentEdits.mergeSort fun a b => a.range.le b.range)
        (undo "aéb".toList adjacentEdits) ∧
      ∃ restored, Edited.ofEdits "b.ts" "x\nb".toList (undo "aéb".toList adjacentEdits)
        (some .char) = .ok restored ∧ restored.code = "aéb".toList := by
  have hedited : Edited.ofEdits "a.ts" "aéb".toList adjacentEdits none =
      .ok ⟨"x\nb".toList, none⟩ := by decide +kernel
  exact ⟨hedited, undone_of_ofEdits hedited "b.ts" (some .char)⟩

end Outdent.Edit
