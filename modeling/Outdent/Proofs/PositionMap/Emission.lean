import Outdent.PositionMap.Emitter
import Outdent.Proofs.Edit.Refusal
import Outdent.Proofs.PositionMap.Recording
/-! # Emitting within 32 bits

After every step the cursors of an emitter stand where the text that is written and the text that is
read of the document end. A text of less than 2 ^ 32 bytes has fewer line feeds and UTF-16 units, so
no addition to a cursor overflows, and what is emitted is what the edits give. -/
namespace Outdent

namespace Cursor

def Fits (p : Cursor) : Prop := p.line < UInt32.size ∧ p.column < UInt32.size

theorem units_le_utf8Size (c : Char) : units c ≤ c.utf8Size := by
  have hpos := c.utf8Size_pos
  by_cases hc : c.toNat < 0x10000
  · rw [units, if_pos hc]
    exact hpos
  · have hne : c.utf8Size ≠ 1 := by
      intro hone
      have hval : c.val.toNat ≤ 127 := UInt32.le_iff_toNat_le.mp (Char.utf8Size_eq_one_iff.mp hone)
      exact hc (Nat.lt_of_le_of_lt hval (by decide))
    rw [units, if_neg hc]
    omega

theorem width_le_byteLength (text : List Char) : width text ≤ Text.byteLength text := by
  induction text with
  | nil => exact Nat.le_refl 0
  | cons c text ih => exact Nat.add_le_add (units_le_utf8Size c) ih

theorem count_le_byteLength (text : List Char) : text.count '\n' ≤ Text.byteLength text := by
  induction text with
  | nil => exact Nat.le_refl 0
  | cons c text ih =>
    have hc := c.utf8Size_pos
    rw [List.count_cons, Text.byteLength]
    split <;> omega

theorem endOf_le_byteLength (text : List Char) :
    (endOf text).line ≤ Text.byteLength text ∧ (endOf text).column ≤ Text.byteLength text := by
  obtain ⟨front, hfront⟩ := List.rtakeWhile_suffix (· ≠ '\n') text
  have hlength := Text.byteLength_append front (text.rtakeWhile (· ≠ '\n'))
  rw [hfront] at hlength
  constructor
  · exact count_le_byteLength text
  · have hwidth := width_le_byteLength (text.rtakeWhile (· ≠ '\n'))
    simp only [endOf]
    omega

theorem fits_endOf {front text : List Char} (hfront : front <+: text)
    (h : Text.byteLength text < UInt32.size) : (endOf front).Fits := by
  obtain ⟨back, rfl⟩ := hfront
  obtain ⟨hline, hcolumn⟩ := endOf_le_byteLength front
  rw [Text.byteLength_append] at h
  constructor <;> omega

end Cursor

namespace WordCursor

variable {p q : WordCursor} {c : Char}

theorem toNat_sum {a b : UInt32} (h : a.toNat + b.toNat < UInt32.size) :
    (a + b).toNat = a.toNat + b.toNat := by
  rw [UInt32.toNat_add]
  exact Nat.mod_eq_of_lt h

theorem sum?_eq_some_iff {a b s : UInt32} : sum? a b = some s ↔ s.toNat = a.toNat + b.toNat := by
  rw [sum?]
  constructor
  · intro h
    split at h
    · next hlt =>
      obtain rfl := Option.some.inj h
      exact toNat_sum hlt
    · cases h
  · intro h
    have hlt : a.toNat + b.toNat < UInt32.size := h ▸ s.toNat_lt_size
    rw [if_pos hlt, Option.some.injEq]
    apply UInt32.toNat_inj.mp
    rw [toNat_sum hlt, h]

theorem toNat_units (c : Char) : (UInt32.ofNat (Cursor.units c)).toNat = Cursor.units c := by
  unfold Cursor.units
  split <;> rfl

theorem fits_toCursor (p : WordCursor) : p.toCursor.Fits :=
  ⟨p.line.toNat_lt_size, p.column.toNat_lt_size⟩

theorem exists_toCursor_eq {p : Cursor} (h : p.Fits) : ∃ q : WordCursor, q.toCursor = p := by
  refine ⟨⟨UInt32.ofNat p.line, UInt32.ofNat p.column⟩, ?_⟩
  rw [toCursor, UInt32.toNat_ofNat_of_lt' h.1, UInt32.toNat_ofNat_of_lt' h.2]

theorem advance?_eq_some_iff : p.advance? c = some q ↔ q.toCursor = p.toCursor.advance c := by
  obtain ⟨line, column⟩ := q
  by_cases hc : c = '\n'
  · rw [advance?, if_pos hc, Cursor.advance, if_pos hc]
    simp only [bind, Option.bind_eq_some_iff, pure, Option.some.injEq, mk.injEq, sum?_eq_some_iff,
      toCursor, Cursor.mk.injEq, UInt32.toNat_one]
    constructor
    · rintro ⟨_, hline, rfl, rfl⟩
      exact ⟨hline, rfl⟩
    · rintro ⟨hline, hcolumn⟩
      exact ⟨line, hline, rfl, (UInt32.toNat_inj.mp hcolumn).symm⟩
  · rw [advance?, if_neg hc, Cursor.advance, if_neg hc]
    simp only [bind, Option.bind_eq_some_iff, pure, Option.some.injEq, mk.injEq, sum?_eq_some_iff,
      toCursor, Cursor.mk.injEq, toNat_units]
    constructor
    · rintro ⟨_, hcolumn, rfl, rfl⟩
      exact ⟨rfl, hcolumn⟩
    · rintro ⟨hline, hcolumn⟩
      exact ⟨column, hcolumn, (UInt32.toNat_inj.mp hline).symm, rfl⟩

theorem exists_advance? (h : (p.toCursor.advance c).Fits) : ∃ q, p.advance? c = some q := by
  obtain ⟨q, hq⟩ := exists_toCursor_eq h
  exact ⟨q, advance?_eq_some_iff.mpr hq⟩

/-- A column at the end of its range: no character of the line can follow. -/
example : (⟨0, 0xFFFFFFFF⟩ : WordCursor).advance? 'a' = none := by decide

end WordCursor

namespace Emitter

def Step.emitted : Step → List Char
  | .start | .pass _ => []
  | .copy c | .insert c => [c]

def Step.consumed : Step → List Char
  | .start | .insert _ => []
  | .copy c | .pass c => [c]

theorem emitted_ofPiece (p : Edit.Piece) :
    (Step.ofPiece p).flatMap Step.emitted = p.output := by
  cases p with
  | kept text => simp [Step.ofPiece, Step.emitted, Edit.Piece.output, List.flatMap_map]
  | swapped old new => simp [Step.ofPiece, Step.emitted, Edit.Piece.output, List.flatMap_map]

theorem consumed_ofPiece (p : Edit.Piece) :
    (Step.ofPiece p).flatMap Step.consumed = p.original := by
  cases p with
  | kept text => simp [Step.ofPiece, Step.consumed, Edit.Piece.original, List.flatMap_map]
  | swapped old new => simp [Step.ofPiece, Step.consumed, Edit.Piece.original, List.flatMap_map]

theorem emitted_ofPieces (ps : List Edit.Piece) :
    (Step.ofPieces ps).flatMap Step.emitted = ps.flatMap Edit.Piece.output := by
  simp only [Step.ofPieces, List.flatMap_assoc, emitted_ofPiece]

theorem consumed_ofPieces (ps : List Edit.Piece) :
    (Step.ofPieces ps).flatMap Step.consumed = ps.flatMap Edit.Piece.original := by
  simp only [Step.ofPieces, List.flatMap_assoc, consumed_ofPiece]

/-- From one emitter to another the code grows by a text, the output cursor moves past that text,
and the original cursor moves past a text of the document. -/
structure Moves (e e' : Emitter) (emitted consumed : List Char) : Prop where
  code : e'.code = e.code ++ emitted
  output : e'.output.toCursor = e.output.toCursor.advanceText emitted
  original : e'.original.toCursor = e.original.toCursor.advanceText consumed
  resolution : e'.resolution = e.resolution

variable {e e' e'' : Emitter} {s : Step} {steps : List Step} {c : Char}

theorem step_copy_eq_some_iff : e.step (.copy c) = some e' ↔
    ∃ output original, e.output.advance? c = some output ∧
      e.original.advance? c = some original ∧
      { e with
        code := e.code ++ [c], output, original, fresh := c = '\n'
        mappings := e.recorded (e.fresh || e.resolution = .char) e.original } = e' := by
  simp [step, Option.bind_eq_some_iff]

theorem step_insert_eq_some_iff : e.step (.insert c) = some e' ↔
    ∃ output, e.output.advance? c = some output ∧
      { e with
        code := e.code ++ [c], output, fresh := c = '\n'
        mappings := e.recorded e.fresh e.anchor } = e' := by
  simp [step, Option.bind_eq_some_iff]

theorem step_pass_eq_some_iff : e.step (.pass c) = some e' ↔
    ∃ original, e.original.advance? c = some original ∧ { e with original } = e' := by
  simp [step, Option.bind_eq_some_iff]

theorem moves_step (h : e.step s = some e') : Moves e e' s.emitted s.consumed := by
  cases s with
  | start =>
    obtain rfl := Option.some.inj h
    exact ⟨(List.append_nil _).symm, rfl, rfl, rfl⟩
  | copy c =>
    obtain ⟨output, original, houtput, horiginal, rfl⟩ := step_copy_eq_some_iff.mp h
    exact ⟨rfl, WordCursor.advance?_eq_some_iff.mp houtput,
      WordCursor.advance?_eq_some_iff.mp horiginal, rfl⟩
  | insert c =>
    obtain ⟨output, houtput, rfl⟩ := step_insert_eq_some_iff.mp h
    exact ⟨rfl, WordCursor.advance?_eq_some_iff.mp houtput, rfl, rfl⟩
  | pass c =>
    obtain ⟨original, horiginal, rfl⟩ := step_pass_eq_some_iff.mp h
    exact ⟨(List.append_nil _).symm, rfl, WordCursor.advance?_eq_some_iff.mp horiginal, rfl⟩

theorem exists_step (hemitted : (e.output.toCursor.advanceText s.emitted).Fits)
    (hconsumed : (e.original.toCursor.advanceText s.consumed).Fits) :
    ∃ e', e.step s = some e' := by
  cases s with
  | start => exact ⟨_, rfl⟩
  | copy c =>
    obtain ⟨output, houtput⟩ := WordCursor.exists_advance? hemitted
    obtain ⟨original, horiginal⟩ := WordCursor.exists_advance? hconsumed
    exact ⟨_, step_copy_eq_some_iff.mpr ⟨output, original, houtput, horiginal, rfl⟩⟩
  | insert c =>
    obtain ⟨output, houtput⟩ := WordCursor.exists_advance? hemitted
    exact ⟨_, step_insert_eq_some_iff.mpr ⟨output, houtput, rfl⟩⟩
  | pass c =>
    obtain ⟨original, horiginal⟩ := WordCursor.exists_advance? hconsumed
    exact ⟨_, step_pass_eq_some_iff.mpr ⟨original, horiginal, rfl⟩⟩

theorem run_cons_eq_some_iff :
    e.run (s :: steps) = some e'' ↔ ∃ e', e.step s = some e' ∧ e'.run steps = some e'' := by
  rw [run, List.foldlM_cons]
  exact Option.bind_eq_some_iff

theorem run_append_eq_some_iff {next : List Step} : e.run (steps ++ next) = some e'' ↔
    ∃ e', e.run steps = some e' ∧ e'.run next = some e'' := by
  rw [run, List.foldlM_append]
  exact Option.bind_eq_some_iff

theorem Moves.trans {emitted consumed emitted' consumed' : List Char}
    (h : Moves e e' emitted consumed) (k : Moves e' e'' emitted' consumed') :
    Moves e e'' (emitted ++ emitted') (consumed ++ consumed') where
  code := by rw [k.code, h.code, List.append_assoc]
  output := by rw [k.output, h.output, Cursor.advanceText_append]
  original := by rw [k.original, h.original, Cursor.advanceText_append]
  resolution := k.resolution.trans h.resolution

theorem moves_run (h : e.run steps = some e') :
    Moves e e' (steps.flatMap Step.emitted) (steps.flatMap Step.consumed) := by
  induction steps generalizing e with
  | nil =>
    obtain rfl := Option.some.inj h
    exact ⟨(List.append_nil _).symm, rfl, rfl, rfl⟩
  | cons s steps ih =>
    obtain ⟨_, hstep, hrun⟩ := run_cons_eq_some_iff.mp h
    exact (moves_step hstep).trans (ih hrun)

/-- An emitter stands behind steps: its code is what they emit, and its cursors are where that text
and the text they consume end. -/
structure StandsBehind (e : Emitter) (steps : List Step) : Prop where
  code : e.code = steps.flatMap Step.emitted
  output : e.output.toCursor = Cursor.endOf e.code
  original : e.original.toCursor = Cursor.endOf (steps.flatMap Step.consumed)

variable {resolution : Option Resolution}

theorem standsBehind_of_run (h : (initial resolution).run steps = some e) :
    e.StandsBehind steps := by
  have hmoves := moves_run h
  have hcode : e.code = steps.flatMap Step.emitted := hmoves.code
  constructor
  · exact hcode
  · rw [hmoves.output, hcode]
    exact Cursor.advanceText_origin _
  · rw [hmoves.original]
    exact Cursor.advanceText_origin _

/-- An emission succeeds exactly if line and column of both cursors fit behind each of its steps. -/
theorem exists_run_iff : (∃ e, (initial resolution).run steps = some e) ↔
    ∀ front, front <+: steps → (Cursor.endOf (front.flatMap Step.emitted)).Fits ∧
      (Cursor.endOf (front.flatMap Step.consumed)).Fits := by
  constructor
  · rintro ⟨_, hrun⟩ front ⟨back, rfl⟩
    obtain ⟨e, hfront, -⟩ := run_append_eq_some_iff.mp hrun
    have hstands := standsBehind_of_run hfront
    rw [← hstands.code, ← hstands.output, ← hstands.original]
    exact ⟨e.output.fits_toCursor, e.original.fits_toCursor⟩
  · intro h
    induction steps using List.reverseRecOn with
    | nil => exact ⟨_, rfl⟩
    | append_singleton steps s ih =>
      obtain ⟨e, hrun⟩ := ih fun front hfront => h front (hfront.trans (List.prefix_append _ _))
      -- the cursors are exact in front of the last step, so what is assumed of the whole row is
      -- that both fit behind it
      have hstands := standsBehind_of_run hrun
      obtain ⟨hemitted, hconsumed⟩ := h _ List.prefix_rfl
      rw [List.flatMap_append, List.flatMap_singleton, ← Cursor.advanceText_endOf,
        ← hstands.code, ← hstands.output] at hemitted
      rw [List.flatMap_append, List.flatMap_singleton, ← Cursor.advanceText_endOf,
        ← hstands.original] at hconsumed
      obtain ⟨e', hstep⟩ := exists_step hemitted hconsumed
      exact ⟨e', run_append_eq_some_iff.mpr ⟨e, hrun, run_cons_eq_some_iff.mpr ⟨e', hstep, rfl⟩⟩⟩

theorem map_recorded (wanted : Bool) (position : WordCursor) (rest : List Mapping) :
    (e.recorded wanted position).map (· ++ rest) = e.mappings.map
      (· ++ if wanted then ⟨e.output.toCursor, position.toCursor⟩ :: rest else rest) := by
  cases wanted <;> simp [recorded, Function.comp_def]

theorem mappings_copied {text : List Char} (h : e.run (text.map .copy) = some e') :
    e'.mappings = e.mappings.map (· ++ Mapping.ofKept e.resolution e.fresh e.output.toCursor
      e.original.toCursor text) := by
  induction text generalizing e with
  | nil =>
    obtain rfl := Option.some.inj h
    simp [Mapping.ofKept]
  | cons c text ih =>
    obtain ⟨_, hstep, hrun⟩ := run_cons_eq_some_iff.mp h
    obtain ⟨output, original, houtput, horiginal, rfl⟩ := step_copy_eq_some_iff.mp hstep
    rw [WordCursor.advance?_eq_some_iff] at houtput horiginal
    rw [ih hrun, Mapping.ofKept, ← houtput, ← horiginal]
    exact map_recorded _ _ _

theorem mappings_inserted {text : List Char} (h : e.run (text.map .insert) = some e') :
    e'.mappings = e.mappings.map (· ++ Mapping.ofSwapped e.anchor.toCursor e.fresh
      e.output.toCursor text) := by
  induction text generalizing e with
  | nil =>
    obtain rfl := Option.some.inj h
    simp [Mapping.ofSwapped]
  | cons c text ih =>
    obtain ⟨_, hstep, hrun⟩ := run_cons_eq_some_iff.mp h
    obtain ⟨output, houtput, rfl⟩ := step_insert_eq_some_iff.mp hstep
    rw [WordCursor.advance?_eq_some_iff] at houtput
    rw [ih hrun, Mapping.ofSwapped, ← houtput]
    exact map_recorded _ _ _

theorem mappings_passed {text : List Char} (h : e.run (text.map .pass) = some e') :
    e'.mappings = e.mappings := by
  induction text generalizing e with
  | nil =>
    obtain rfl := Option.some.inj h
    rfl
  | cons c text ih =>
    obtain ⟨_, hstep, hrun⟩ := run_cons_eq_some_iff.mp h
    obtain ⟨original, -, rfl⟩ := step_pass_eq_some_iff.mp hstep
    rw [ih hrun]

theorem mappings_piece {p : Edit.Piece} (h : e.run (Step.ofPiece p) = some e') :
    e'.mappings = e.mappings.map (· ++ Mapping.ofPiece e.resolution e.output.toCursor
      e.original.toCursor p) := by
  cases p with
  | kept text =>
    obtain ⟨_, hstart, hrun⟩ := run_cons_eq_some_iff.mp h
    obtain rfl := Option.some.inj hstart
    exact mappings_copied hrun
  | swapped old new =>
    obtain ⟨_, hstart, hrun⟩ := run_cons_eq_some_iff.mp h
    obtain rfl := Option.some.inj hstart
    obtain ⟨_, hinserted, hpassed⟩ := run_append_eq_some_iff.mp hrun
    rw [mappings_passed hpassed]
    exact mappings_inserted hinserted

theorem mappings_pieces {ps : List Edit.Piece} (h : e.run (Step.ofPieces ps) = some e') :
    e'.mappings = e.mappings.map (· ++ Mapping.ofPieces e.resolution e.output.toCursor
      e.original.toCursor ps) := by
  induction ps generalizing e with
  | nil =>
    obtain rfl := Option.some.inj h
    simp [Mapping.ofPieces]
  | cons p ps ih =>
    obtain ⟨_, hpiece, hrest⟩ := run_append_eq_some_iff.mp h
    have hmoves := moves_run hpiece
    rw [emitted_ofPiece, consumed_ofPiece] at hmoves
    rw [ih hrest, mappings_piece hpiece, Option.map_map, Mapping.ofPieces, hmoves.output,
      hmoves.original, hmoves.resolution]
    congr 1
    funext ms
    exact List.append_assoc _ _ _

theorem finish_of_run {ps : List Edit.Piece}
    (h : (initial resolution).run (Step.ofPieces ps) = some e) (id : String) (text : List Char) :
    e.finish id text = ⟨ps.flatMap Edit.Piece.output,
      resolution.map fun r => ⟨id, text, Mapping.ofPieces r .origin .origin ps⟩⟩ := by
  have hcode := (standsBehind_of_run h).code
  rw [emitted_ofPieces] at hcode
  rw [finish, hcode, mappings_pieces h]
  cases resolution <;> rfl

theorem flatMap_front {α β : Type} {xs ys : List α} (h : xs <+: ys) (f : α → List β) :
    xs.flatMap f <+: ys.flatMap f := by
  obtain ⟨zs, rfl⟩ := h
  rw [List.flatMap_append]
  exact List.prefix_append _ _

theorem emitted_front {ps : List Edit.Piece} {front : List Step} (h : front <+: Step.ofPieces ps) :
    front.flatMap Step.emitted <+: ps.flatMap Edit.Piece.output := by
  rw [← emitted_ofPieces]
  exact flatMap_front h _

theorem consumed_front {ps : List Edit.Piece} {front : List Step} (h : front <+: Step.ofPieces ps) :
    front.flatMap Step.consumed <+: ps.flatMap Edit.Piece.original := by
  rw [← consumed_ofPieces]
  exact flatMap_front h _

theorem exists_run_of_front (resolution : Option Resolution) {ps : List Edit.Piece}
    {front : List Step} (hfront : front <+: Step.ofPieces ps)
    (houtput : Text.byteLength (ps.flatMap Edit.Piece.output) < UInt32.size)
    (horiginal : Text.byteLength (ps.flatMap Edit.Piece.original) < UInt32.size) :
    ∃ e, (initial resolution).run front = some e := by
  apply exists_run_iff.mpr
  intro steps hsteps
  have hwithin := hsteps.trans hfront
  exact ⟨Cursor.fits_endOf (emitted_front hwithin) houtput,
    Cursor.fits_endOf (consumed_front hwithin) horiginal⟩

/-- Pieces of a document are emitted within words. Behind any of the steps no addition has
overflowed, what is written and read are front parts of the code and of the document, and the
cursors are where these end. Behind the last step the document is read through, and the emitter
gives what the edits give. -/
structure EmitsWithinWords (id : String) (text : List Char) (ps : List Edit.Piece)
    (resolution : Option Resolution) (edited : Edited) : Prop where
  behind : ∀ front, front <+: Step.ofPieces ps →
    ∃ e, (initial resolution).run front = some e ∧ e.StandsBehind front ∧
      e.code <+: edited.code ∧ front.flatMap Step.consumed <+: text
  through : (Step.ofPieces ps).flatMap Step.consumed = text
  finished : ∃ e, (initial resolution).run (Step.ofPieces ps) = some e ∧ e.finish id text = edited

/-- Accepted edits of a document are emitted within words if the document and the result have less
than 2 ^ 32 bytes each: no addition overflows, and both cursors are exact behind every step. -/
theorem emitsWithinWords_of_ofEdits {id : String} {text : List Char} {edits : List Edit}
    {edited : Edited} (h : Edited.ofEdits id text edits resolution = .ok edited)
    (htext : Text.byteLength text < UInt32.size)
    (hcode : Text.byteLength edited.code < UInt32.size) :
    ∃ ps, Edit.cut text edits = .ok ps ∧ EmitsWithinWords id text ps resolution edited := by
  obtain ⟨ps, hcut, rfl⟩ := Edited.ofEdits_eq_ok_iff.mp h
  have horiginal : ps.flatMap Edit.Piece.original = text := by
    obtain ⟨-, rfl⟩ := Edit.cut_eq_ok_iff.mp hcut
    exact Edit.flatMap_original_pieces 0 text _
  have hread : Text.byteLength (ps.flatMap Edit.Piece.original) < UInt32.size := by
    rw [horiginal]
    exact htext
  refine ⟨ps, hcut, fun front hfront => ?_, ?_, ?_⟩
  · obtain ⟨e, hrun⟩ := exists_run_of_front resolution hfront hcode hread
    have hstands := standsBehind_of_run hrun
    refine ⟨e, hrun, hstands, ?_, ?_⟩
    · rw [hstands.code]
      exact emitted_front hfront
    · rw [← horiginal]
      exact consumed_front hfront
  · rw [consumed_ofPieces, horiginal]
  · obtain ⟨e, hrun⟩ := exists_run_of_front resolution List.prefix_rfl hcode hread
    exact ⟨e, hrun, finish_of_run hrun id text⟩

def wideEdits : List Edit := [.delete ⟨7, 8⟩, .replace ⟨1, 6⟩ "é\n😀q".toList]

def wideEdited : Edited :=
  ⟨"xé\n😀qyz".toList, some ⟨"a.ts", "x😀\ny\nz".toList,
    [⟨⟨0, 0⟩, ⟨0, 0⟩⟩, ⟨⟨0, 1⟩, ⟨0, 1⟩⟩, ⟨⟨1, 0⟩, ⟨0, 1⟩⟩, ⟨⟨1, 3⟩, ⟨1, 0⟩⟩, ⟨⟨1, 4⟩, ⟨2, 0⟩⟩]⟩⟩

theorem emitsWithinWords_of_wideEdits :
    Edited.ofEdits "a.ts" "x😀\ny\nz".toList wideEdits (some .char) = .ok wideEdited ∧
      Text.byteLength "x😀\ny\nz".toList < UInt32.size ∧
      Text.byteLength wideEdited.code < UInt32.size ∧
      ∃ ps, Edit.cut "x😀\ny\nz".toList wideEdits = .ok ps ∧
        EmitsWithinWords "a.ts" "x😀\ny\nz".toList ps (some .char) wideEdited := by
  have hedited : Edited.ofEdits "a.ts" "x😀\ny\nz".toList wideEdits (some .char) =
      .ok wideEdited := by decide +kernel
  have htext : Text.byteLength "x😀\ny\nz".toList < UInt32.size := by decide
  have hcode : Text.byteLength wideEdited.code < UInt32.size := by decide
  exact ⟨hedited, htext, hcode, emitsWithinWords_of_ofEdits hedited htext hcode⟩

end Emitter

end Outdent
