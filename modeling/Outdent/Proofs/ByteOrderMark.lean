import Outdent.Proofs.Edit.Length
import Outdent.Proofs.Edit.Moving
import Outdent.Proofs.Edit.Verdict
import Outdent.Proofs.Rewrite
/-! # Byte order marks

A byte order mark at the start of a document is no part of the module. The positions in the tree are
counted without it and the edits are applied with it, so every edit takes effect three bytes in
front of its place. -/
namespace Outdent

open Marker

namespace Document

def marked (d : Document) : Document := ⟨d.id, '\ufeff' :: d.text⟩

variable {d : Document} {resolution : Option Resolution} {r : Rewritten} {m : Syntax.Module}

theorem withoutByteOrderMark_eq_self {text : List Char} (h : text.head? ≠ some '\ufeff') :
    withoutByteOrderMark text = text := by
  unfold withoutByteOrderMark
  split
  · exact absurd rfl h
  · rfl

theorem parse_marked_eq_ok_iff (h : d.text.head? ≠ some '\ufeff') :
    d.marked.parse = .ok m ↔ d.parse = .ok m := by
  have hmarked : withoutByteOrderMark d.marked.text = d.text := rfl
  rw [parse_eq_ok_iff, parse_eq_ok_iff, hmarked, withoutByteOrderMark_eq_self h]
  rfl

/-- What a byte order mark does to a rewrite: the edits of the module are not moved behind it. -/
structure MissesMark (d : Document) (resolution : Option Resolution) (m : Syntax.Module)
    (r : Rewritten) : Prop where
  /-- Some result is given exactly if every edit is a span of the text with the mark. -/
  taken : (∃ r', d.marked.rewrite resolution = .ok (some r')) ↔
    ∀ e ∈ edits m, e.range.IsSpanOf d.marked.text
  refused : ∀ fault, d.marked.rewrite resolution = .error fault →
    ∃ range size, fault = .edit d.id (.invalid range size)
  /-- The result has the right counts and the right length. -/
  given : ∀ r', d.marked.rewrite resolution = .ok (some r') → r'.id = r.id ∧ r'.stats = r.stats ∧
    Edit.apply d.marked.text (edits m) = .ok r'.code ∧
    Text.byteLength r'.code = Text.byteLength r.code + 3
  /-- Moved behind the mark, the edits would keep it and rewrite the document as they should. -/
  moved : Edit.apply d.marked.text ((edits m).map (Edit.moved 3)) = .ok ('\ufeff' :: r.code)
  /-- The mark is kept in front of the right result exactly if it makes no difference to the text
  whether the edits are moved. -/
  inert_iff : (∃ map, d.marked.rewrite resolution =
      .ok (some ⟨d.id, '\ufeff' :: r.code, map, r.stats⟩)) ↔
    Edit.apply d.marked.text (edits m) =
      Edit.apply d.marked.text ((edits m).map (Edit.moved 3))

theorem missesMark_of_ofEdits {code : List Char} {map : Option PositionMap}
    (h : d.text.head? ≠ some '\ufeff') (hparse : d.parse = .ok m)
    (hmatches : (Stats.ofModule m).hasMatches = true)
    (hedits : Edited.ofEdits d.id d.text (edits m) resolution = .ok ⟨code, map⟩) :
    MissesMark d resolution m ⟨d.id, code, map, Stats.ofModule m⟩ := by
  have hmarked : d.marked.parse = .ok m := (parse_marked_eq_ok_iff h).mpr hparse
  have hrewrite : d.marked.rewrite resolution = _ := rewrite_of_parse hmarked hmatches
  have happly : Edit.apply d.text (edits m) = .ok code :=
    Edited.exists_ofEdits_iff.mp ⟨map, hedits⟩
  have haccepted : Edit.Accepted d.text (edits m) := Edit.exists_apply_iff.mp ⟨code, happly⟩
  have hmoved : Edit.apply (['\ufeff'] ++ d.text) ((edits m).map (Edit.moved 3)) =
      .ok (['\ufeff'] ++ code) := Edit.apply_moved happly
  have hgiven : ∀ r', d.marked.rewrite resolution = .ok (some r') → r'.id = d.id ∧
      r'.stats = Stats.ofModule m ∧ Edit.apply d.marked.text (edits m) = .ok r'.code := by
    intro r' hr'
    obtain ⟨m', edited, hm', -, hedited, rfl⟩ := rewrite_eq_some_iff.mp hr'
    obtain rfl : m' = m := Except.ok.inj (hm'.symm.trans hmarked)
    exact ⟨rfl, rfl, Edited.exists_ofEdits_iff.mp ⟨edited.map, hedited⟩⟩
  have hcode : ∀ code', Edit.apply d.marked.text (edits m) = .ok code' →
      ∃ map', d.marked.rewrite resolution =
        .ok (some ⟨d.id, code', map', Stats.ofModule m⟩) := by
    intro code' hcode'
    obtain ⟨map', hmap⟩ := Edited.exists_ofEdits_iff.mpr hcode'
    refine ⟨map', ?_⟩
    rw [hrewrite, hmap]
    rfl
  constructor
  · simp only [← Span.isValidIn_iff_isSpanOf]
    constructor
    · rintro ⟨r', hr'⟩
      exact (Edit.exists_apply_iff.mp ⟨_, (hgiven r' hr').2.2⟩).valid
    · intro hvalid
      obtain ⟨code', hcode'⟩ := Edit.exists_apply_iff.mpr ⟨hvalid, haccepted.apart⟩
      obtain ⟨map', hsome⟩ := hcode code' hcode'
      exact ⟨_, hsome⟩
  · intro fault hfault
    rw [hrewrite] at hfault
    cases hcut : Edited.ofEdits d.marked.id d.marked.text (edits m) resolution with
    | ok edited => simp [hcut] at hfault
    | error f =>
      rw [hcut] at hfault
      cases f with
      | invalid range size => exact ⟨range, size, (Except.error.inj hfault).symm⟩
      | overlapping a b =>
        exact absurd (Edited.ofEdits_eq_error_iff.mp hcut) (Edit.cut_ne_overlapping haccepted a b)
  · intro r' hr'
    obtain ⟨hid, hstats, hcode'⟩ := hgiven r' hr'
    refine ⟨hid, hstats, hcode', ?_⟩
    obtain ⟨ps, hps, hlength⟩ := Edit.apply_eq_ok_iff.mp hcode'
    obtain ⟨qs, hqs, hright⟩ := Edit.apply_eq_ok_iff.mp happly
    have hmarkedLength := Edit.byteLength_of_cut hps
    have hplainLength := Edit.byteLength_of_cut hqs
    have hmark : Text.byteLength d.marked.text = 3 + Text.byteLength d.text := rfl
    rw [hlength] at hmarkedLength
    rw [hright] at hplainLength
    change Text.byteLength r'.code = Text.byteLength code + 3
    omega
  · exact hmoved
  · constructor
    · rintro ⟨map', hinert⟩
      exact (hgiven _ hinert).2.2.trans hmoved.symm
    · intro hsame
      exact hcode _ (hsame.trans hmoved)

/-- With a byte order mark in front a document is parsed as without it, and left alone where it is
without it. If it is rewritten, the edits are not moved behind the mark, and the result is the
right one exactly if that makes no difference. -/
theorem rewrite_marked (h : d.text.head? ≠ some '\ufeff') (resolution : Option Resolution) :
    ((∃ line column, d.marked.rewrite resolution = .error (.parse d.id line column)) ↔
      ∃ line column, d.rewrite resolution = .error (.parse d.id line column)) ∧
    (d.marked.rewrite resolution = .ok none ↔ d.rewrite resolution = .ok none) ∧
    ∀ r, d.rewrite resolution = .ok (some r) →
      ∃ m, d.parse = .ok m ∧ MissesMark d resolution m r := by
  have hparse : ∀ m, d.marked.parse = .ok m ↔ d.parse = .ok m := fun m => parse_marked_eq_ok_iff h
  refine ⟨?_, ?_, ?_⟩
  · have hid : d.marked.id = d.id := rfl
    rw [← hid, exists_rewrite_parse_error_iff, hid, exists_rewrite_parse_error_iff]
    exact forall_congr' fun m => not_congr (hparse m)
  · rw [rewrite_eq_none_iff, rewrite_eq_none_iff]
    simp only [hparse]
  · intro r hr
    obtain ⟨m, edited, hm, hmatches, hedits, rfl⟩ := rewrite_eq_some_iff.mp hr
    exact ⟨m, hm, missesMark_of_ofEdits h hm hmatches hedits⟩

def leadingMarker : Document := ⟨"src/index.ts", "dedent` a `".toList⟩

def unmarkedTemplate : Rewritten := ⟨"src/index.ts", "`a`".toList, none, ⟨0, 1, 0, 1⟩⟩

theorem rewrite_marked_leadingMarker : leadingMarker.text.head? ≠ some '\ufeff' ∧
    leadingMarker.rewrite none = .ok (some unmarkedTemplate) ∧
    ∃ m, leadingMarker.parse = .ok m ∧ MissesMark leadingMarker none m unmarkedTemplate := by
  have hhead : leadingMarker.text.head? ≠ some '\ufeff' := by decide
  have hrewrite : leadingMarker.rewrite none = .ok (some unmarkedTemplate) := by decide +kernel
  exact ⟨hhead, hrewrite, (rewrite_marked hhead none).2.2 unmarkedTemplate hrewrite⟩

/-- The mark itself is taken for half of the tag, and nothing keeps it in front of the result. -/
theorem not_inert_leadingMarker : leadingMarker.text.head? ≠ some '\ufeff' ∧
    leadingMarker.rewrite none = .ok (some unmarkedTemplate) ∧
    leadingMarker.marked.rewrite none =
      .ok (some ⟨"src/index.ts", "ea a `".toList, none, ⟨0, 1, 0, 1⟩⟩) ∧
    ∀ map, leadingMarker.marked.rewrite none ≠ .ok (some ⟨"src/index.ts",
      '\ufeff' :: unmarkedTemplate.code, map, unmarkedTemplate.stats⟩) := by
  have hrewrite : leadingMarker.marked.rewrite none =
      .ok (some ⟨"src/index.ts", "ea a `".toList, none, ⟨0, 1, 0, 1⟩⟩) := by decide +kernel
  refine ⟨by decide, by decide +kernel, hrewrite, fun map hmap => ?_⟩
  have hcode : "ea a `".toList = '\ufeff' :: unmarkedTemplate.code := by
    rw [hrewrite] at hmap
    simp only [Except.ok.injEq, Option.some.injEq, Rewritten.mk.injEq] at hmap
    exact hmap.2.1
  exact absurd hcode (by decide)

end Document

end Outdent
