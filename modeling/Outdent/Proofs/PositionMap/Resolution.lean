import Outdent.Proofs.Edit.Refusal
import Outdent.Proofs.PositionMap.Lookup
/-! # The two resolutions

Mappings are recorded beside a result and have no part in it: whether edits are taken, and what is
made of them, is the same at both resolutions and without a map. The coarse map is contained in the
fine one, which has a mapping more for each copied character in the middle of a line of its span. -/
namespace Outdent

/-- A row into which two others are merged, each of them in its order. -/
inductive Merged {α : Type} : List α → List α → List α → Prop where
  | nil : Merged [] [] []
  | left {x : α} {xs ys zs : List α} : Merged xs ys zs → Merged (x :: xs) ys (x :: zs)
  | right {y : α} {xs ys zs : List α} : Merged xs ys zs → Merged xs (y :: ys) (y :: zs)

namespace Merged

variable {α : Type} {xs ys zs us vs ws : List α}

theorem sublist (h : Merged xs ys zs) : xs.Sublist zs := by
  induction h with
  | nil => exact List.Sublist.slnil
  | left _ ih => exact ih.cons_cons _
  | right _ ih => exact ih.cons _

theorem append (h : Merged xs ys zs) (k : Merged us vs ws) :
    Merged (xs ++ us) (ys ++ vs) (zs ++ ws) := by
  induction h with
  | nil => exact k
  | left _ ih => exact ih.left
  | right _ ih => exact ih.right

theorem append_left (front : List α) (h : Merged xs ys zs) :
    Merged (front ++ xs) ys (front ++ zs) := by
  induction front with
  | nil => exact h
  | cons x front ih => exact ih.left

end Merged

theorem Text.standsAt_iff {text : List Char} {offset : Nat} {c : Char} :
    StandsAt text offset c ↔
      isBoundary offset text = true ∧ (splitAtByte offset text).2.head? = some c := by
  constructor
  · rintro ⟨before, after, rfl, rfl⟩
    rw [splitAtByte_byteLength]
    exact ⟨isBoundary_byteLength before (c :: after), rfl⟩
  · rintro ⟨hboundary, hhead⟩
    obtain ⟨after, hafter⟩ := List.head?_eq_some_iff.mp hhead
    have htext := splitAtByte_append offset text
    rw [hafter] at htext
    exact ⟨_, after, htext.symm, byteLength_splitAtByte hboundary⟩

instance (text : List Char) (offset : Nat) (c : Char) : Decidable (Text.StandsAt text offset c) :=
  decidable_of_iff' _ Text.standsAt_iff

namespace Provenance

variable {text xs u v rest : List Char} {start offset : Nat}

theorem isAnchor_iff : IsAnchor text start offset ↔
    offset = start ∨ start < offset ∧ Text.StandsAt text (offset - 1) '\n' := by
  refine or_congr_right ?_
  constructor
  · rintro ⟨n, hle, hstands, rfl⟩
    exact ⟨Nat.lt_succ_of_le hle, hstands⟩
  · rintro ⟨hlt, hstands⟩
    exact ⟨offset - 1, by omega, hstands, by omega⟩

instance (text : List Char) (start offset : Nat) : Decidable (IsAnchor text start offset) :=
  decidable_of_iff' _ isAnchor_iff

/-- The mapping of a character of a result that is copied from the middle of a line of its span. -/
def inner (text : List Char) (output : Cursor) : Provenance → List Mapping
  | .inserted _ => []
  | .copied start offset =>
    if IsAnchor text start offset then [] else [⟨output, Cursor.ofOffset text offset⟩]

/-- The mappings of all such characters of a part of a result that starts at a position. -/
def innerAlong (text : List Char) : (output : Cursor) → List (Char × Provenance) → List Mapping
  | _, [] => []
  | output, (c, p) :: part => p.inner text output ++ innerAlong text (output.advance c) part

theorem innerAlong_append (output : Cursor) (part next : List (Char × Provenance)) :
    innerAlong text output (part ++ next) = innerAlong text output part ++
      innerAlong text (output.advanceText (part.map Prod.fst)) next := by
  induction part generalizing output with
  | nil => rfl
  | cons x part ih => simp [innerAlong, ih]

theorem innerAlong_inserted (output : Cursor) (e : Edit) (cs : List Char) :
    innerAlong text output (cs.map (·, .inserted e)) = [] := by
  induction cs generalizing output with
  | nil => rfl
  | cons c cs ih => simp [innerAlong, inner, ih]

/-- Along a copied text, of which `u` is done, the fine resolution adds to the coarse one a mapping
for each character that is no anchor. -/
theorem merged_ofKept (htext : text = xs ++ (u ++ v) ++ rest) (output : Cursor) :
    Merged
      (Mapping.ofKept .boundary (Mapping.freshAfter true u) output
        (Cursor.origin.advanceText (xs ++ u)) v)
      (innerAlong text output (traceCopied (Text.byteLength xs) (Text.byteLength (xs ++ u)) v))
      (Mapping.ofKept .char (Mapping.freshAfter true u) output
        (Cursor.origin.advanceText (xs ++ u)) v) := by
  induction v generalizing u output with
  | nil => exact .nil
  | cons c v ih =>
    have hbehind : text = xs ++ u ++ (c :: v ++ rest) := by simp [htext]
    have hanchor := isAnchor_iff_freshAfter hbehind
    have hmoved : text = xs ++ (u ++ [c] ++ v) ++ rest := by simp [htext]
    have hnext := ih hmoved (output.advance c)
    have hfresh : Mapping.freshAfter true (u ++ [c]) = decide (c = '\n') := by
      simp [Mapping.freshAfter]
    have horigin : Cursor.origin.advanceText (xs ++ (u ++ [c])) =
        (Cursor.origin.advanceText (xs ++ u)).advance c := by
      rw [← List.append_assoc, Cursor.advanceText_append]
      rfl
    have hoffset : Text.byteLength (xs ++ (u ++ [c])) =
        Text.byteLength (xs ++ u) + c.utf8Size := by
      rw [← List.append_assoc, Text.byteLength_append]
      rfl
    have hposition : Cursor.ofOffset text (Text.byteLength (xs ++ u)) =
        Cursor.origin.advanceText (xs ++ u) := by
      rw [hbehind, Cursor.ofOffset_byteLength]
    rw [hfresh, horigin, hoffset] at hnext
    simp only [Mapping.ofKept, traceCopied, innerAlong, inner]
    by_cases h : Mapping.freshAfter true u = true
    · rw [if_pos (hanchor.mpr h)]
      simpa only [h, Bool.true_or, if_true, List.nil_append] using hnext.left
    · rw [if_neg (mt hanchor.mp h), hposition]
      simpa [h] using hnext.right

theorem merged_ofPieces {es : List Edit} (xs : List Char) (output : Cursor)
    (htext : text = xs ++ rest) (hv : ∀ e ∈ es, e.range.isValidIn text = true)
    (hf : Span.Follows (Text.byteLength xs) (es.map Edit.range)) :
    Merged
      (Mapping.ofPieces .boundary output (Cursor.origin.advanceText xs)
        (Edit.pieces (Text.byteLength xs) rest es))
      (innerAlong text output (traceFrom text (Text.byteLength xs) es))
      (Mapping.ofPieces .char output (Cursor.origin.advanceText xs)
        (Edit.pieces (Text.byteLength xs) rest es)) := by
  induction es generalizing xs rest output with
  | nil =>
    have hslice : Text.slice (Text.byteLength xs) (Text.byteLength text) text = rest := by
      rw [htext, Text.slice_rest]
    have hwhole : text = xs ++ ([] ++ rest) ++ [] := by simp [htext]
    have hkept := merged_ofKept hwhole output
    rw [List.append_nil] at hkept
    simp only [traceFrom, hslice, Edit.pieces, Mapping.ofPieces, Mapping.ofPiece, List.append_nil]
    exact hkept
  | cons e es ih =>
    obtain ⟨before, old, after, rfl, hcut⟩ :=
      Edit.exists_cutAt htext (hv e List.mem_cons_self) hf.1
    have hcopied : text = xs ++ ([] ++ before) ++ (old ++ after) := by simp [htext]
    have hkept := merged_ofKept hcopied output
    have hrest := ih (xs ++ before ++ old)
      ((output.advanceText before).advanceText e.replacement) hcut.text_eq
      (fun f hf => hv f (List.mem_cons_of_mem _ hf)) (hcut.stop ▸ hf.2)
    rw [hcut.stop, Cursor.advanceText_append, Cursor.advanceText_append] at hrest
    rw [hcut.pieces_cons, traceFrom, hcut.slice_eq, innerAlong_append, innerAlong_append,
      innerAlong_inserted, map_fst_traceCopied, map_fst_inserted, List.nil_append]
    simp only [List.append_nil] at hkept
    exact hkept.append (hrest.append_left _)

/-- Edits are refused for the same fault, or make the same text, whether a position map is recorded
or not and at either resolution. The coarse mappings are among the fine ones, and the others are one
for each character of the result that is copied and neither starts its span nor follows a line feed
in it. -/
theorem resolutions_of_ofEdits (id : String) (text : List Char) (edits : List Edit) :
    (∃ fault, ∀ resolution, Edited.ofEdits id text edits resolution = .error fault) ∨
    ∃ code coarse fine,
      Edited.ofEdits id text edits none = .ok ⟨code, none⟩ ∧
      Edited.ofEdits id text edits (some .boundary) = .ok ⟨code, some ⟨id, text, coarse⟩⟩ ∧
      Edited.ofEdits id text edits (some .char) = .ok ⟨code, some ⟨id, text, fine⟩⟩ ∧
      coarse.Sublist fine ∧
      (trace text edits).map Prod.fst = code ∧
      (∀ x ∈ trace text edits, Holds text edits x.1 x.2) ∧
      Merged coarse (innerAlong text .origin (trace text edits)) fine := by
  cases hcut : Edit.cut text edits with
  | error fault =>
    left
    exact ⟨fault, fun _ => Edited.ofEdits_eq_error_iff.mpr hcut⟩
  | ok ps =>
    right
    have hedited : ∀ resolution, Edited.ofEdits id text edits resolution =
        .ok ⟨ps.flatMap Edit.Piece.output, resolution.map fun r =>
          ⟨id, text, Mapping.ofPieces r .origin .origin ps⟩⟩ :=
      fun _ => Edited.ofEdits_eq_ok_iff.mpr ⟨ps, hcut, rfl⟩
    have htruth := holds_trace hcut
    obtain ⟨hcheck, rfl⟩ := Edit.cut_eq_ok_iff.mp hcut
    obtain ⟨hv, hf⟩ := Edit.check_eq_ok_iff.mp hcheck
    have hmerged := merged_ofPieces [] .origin rfl hv hf
    obtain ⟨hchars, -⟩ := answers_traceFrom [] .origin .char rfl hv hf
    exact ⟨_, _, _, hedited none, hedited (some .boundary), hedited (some .char),
      hmerged.sublist, hchars, htruth, hmerged⟩

/-- A line feed belongs to the line that it ends. -/
example : innerAlong "😀\nxé dy\nz".toList .origin (trace "😀\nxé dy\nz".toList twoEdits) =
    [⟨⟨2, 2⟩, ⟨1, 3⟩⟩, ⟨⟨2, 3⟩, ⟨1, 4⟩⟩, ⟨⟨2, 4⟩, ⟨1, 5⟩⟩] := by decide +kernel

end Provenance

end Outdent
