import Mathlib.Data.List.Basic
import Outdent.Rewrite
/-! # What a rewrite says

A document is read as a module, or has a fault at a point in it. A rewrite gives nothing back
exactly if a document is read and nothing in it asks for a rewrite, and a result exactly if
something does and the edits can be applied. -/
namespace Outdent

open Marker

theorem Marker.hasMatches_eq_false_iff {m : Syntax.Module} :
    (Stats.ofModule m).hasMatches = false ↔ imports m = [] ∧ usages m = [] := by
  have hlength : (usages m).length = ((usages m).filter Usage.isDirect).length +
      ((usages m).filter (! ·.isDirect)).length := List.length_eq_length_filter_add _
  simp only [Stats.hasMatches, Stats.ofModule, removedImports, List.length_map,
    decide_eq_false_iff_not, Nat.not_lt, Nat.le_zero, ← List.length_eq_zero_iff]
  omega

namespace Document

variable {d : Document} {resolution : Option Resolution} {m : Syntax.Module}

theorem parse_eq_ok_iff : d.parse = .ok m ↔
    Syntax.Module.ofText d.hasElements (withoutByteOrderMark d.text) = .ok m := by
  unfold parse
  cases Syntax.Module.ofText d.hasElements (withoutByteOrderMark d.text) <;> simp

/-- A document that is no module has its fault at an offset in it or at its end. -/
theorem parse_cases (d : Document) : (∃ m, d.parse = .ok m) ∨
    ∃ offset ≤ Text.byteLength d.text, d.parse =
      .error (.parse d.id ((LineTable.ofText d.text).point offset).line
        ((LineTable.ofText d.text).point offset).column) := by
  unfold parse
  cases Syntax.Module.ofText d.hasElements (withoutByteOrderMark d.text) with
  | ok m => exact Or.inl ⟨m, rfl⟩
  | error position => exact Or.inr ⟨_, Nat.min_le_right position _, rfl⟩

theorem rewrite_of_parse (hparse : d.parse = .ok m)
    (hmatches : (Stats.ofModule m).hasMatches = true) : d.rewrite resolution =
      match Edited.ofEdits d.id d.text (edits m) resolution with
      | .ok edited => .ok (some ⟨d.id, edited.code, edited.map, Stats.ofModule m⟩)
      | .error fault => .error (.edit d.id fault) := by
  cases hedits : Edited.ofEdits d.id d.text (edits m) resolution <;>
    simp [rewrite, hparse, bind, Except.bind, hmatches, hedits, pure, Except.pure, throw,
      throwThe, MonadExceptOf.throw]

theorem rewrite_of_no_matches (hparse : d.parse = .ok m)
    (hmatches : (Stats.ofModule m).hasMatches = false) : d.rewrite resolution = .ok none := by
  simp [rewrite, hparse, bind, Except.bind, hmatches, pure, Except.pure]

theorem rewrite_of_parse_error {e : Error} (hparse : d.parse = .error e) :
    d.rewrite resolution = .error e := by
  simp [rewrite, hparse, bind, Except.bind]

theorem exists_rewrite_parse_error_iff :
    (∃ line column, d.rewrite resolution = .error (.parse d.id line column)) ↔
      ∀ m, d.parse ≠ .ok m := by
  constructor
  · rintro ⟨line, column, hrewrite⟩ m hparse
    cases hmatches : (Stats.ofModule m).hasMatches with
    | false => simp [rewrite_of_no_matches hparse hmatches] at hrewrite
    | true =>
      rw [rewrite_of_parse hparse hmatches] at hrewrite
      split at hrewrite <;> simp at hrewrite
  · intro hno
    rcases parse_cases d with ⟨m, hparse⟩ | ⟨offset, -, hparse⟩
    · exact absurd hparse (hno m)
    · exact ⟨_, _, rewrite_of_parse_error hparse⟩

theorem rewrite_eq_none_iff : d.rewrite resolution = .ok none ↔
    ∃ m, d.parse = .ok m ∧ imports m = [] ∧ usages m = [] := by
  simp only [← hasMatches_eq_false_iff]
  cases hparse : d.parse with
  | error fault => simp [rewrite_of_parse_error hparse]
  | ok m =>
    cases hmatches : (Stats.ofModule m).hasMatches with
    | false => simp [rewrite_of_no_matches hparse hmatches, hmatches]
    | true =>
      rw [rewrite_of_parse hparse hmatches]
      split <;> simp [hmatches]

theorem rewrite_eq_some_iff {r : Rewritten} : d.rewrite resolution = .ok (some r) ↔
    ∃ m edited, d.parse = .ok m ∧ (Stats.ofModule m).hasMatches = true ∧
      Edited.ofEdits d.id d.text (edits m) resolution = .ok edited ∧
      ⟨d.id, edited.code, edited.map, Stats.ofModule m⟩ = r := by
  cases hparse : d.parse with
  | error fault => simp [rewrite_of_parse_error hparse]
  | ok m =>
    cases hmatches : (Stats.ofModule m).hasMatches with
    | false => simp [rewrite_of_no_matches hparse hmatches, hmatches]
    | true =>
      rw [rewrite_of_parse hparse hmatches]
      split
      · next edited hedits => simp [hmatches, hedits]
      · next fault hedits => simp [hmatches, hedits]

end Document

end Outdent
