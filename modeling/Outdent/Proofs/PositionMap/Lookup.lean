import Mathlib.Order.Bounds.Basic
import Outdent.Proofs.PositionMap.Provenance
import Outdent.Proofs.PositionMap.Recording
/-! # Looking up the characters of a result

For every character of a result the position map answers with where the character comes from: at
the fine resolution exactly, at the coarse one with the start of its line or span. -/
namespace Outdent

def Cursor.ofOffset (text : List Char) (offset : Nat) : Cursor :=
  Cursor.origin.advanceText (Text.splitAtByte offset text).1

theorem Cursor.ofOffset_byteLength (xs ys : List Char) :
    ofOffset (xs ++ ys) (Text.byteLength xs) = Cursor.origin.advanceText xs := by
  rw [ofOffset, Text.splitAtByte_byteLength]

namespace Provenance

/-- The offsets that are mapped at the coarse resolution: where a span starts, and where a line in
it does. -/
def IsAnchor (text : List Char) (start offset : Nat) : Prop :=
  offset = start ∨ ∃ n, start ≤ n ∧ Text.StandsAt text n '\n' ∧ offset = n + 1

/-- What a mapping has to be to the position of a character that comes from somewhere. -/
def Explains (text : List Char) (m : Mapping) (p : Cursor) : Resolution → Provenance → Prop
  | _, .inserted e => m.origin = Cursor.ofOffset text e.range.start ∧ m.output.line = p.line
  | .char, .copied _ offset => m.origin = Cursor.ofOffset text offset ∧ m.output = p
  | .boundary, .copied start offset =>
    ∃ o, IsGreatest {n | n ≤ offset ∧ IsAnchor text start n} o ∧
      m.origin = Cursor.ofOffset text o ∧ m.output.line = p.line ∧
      (Cursor.ofOffset text o).line = (Cursor.ofOffset text offset).line ∧
      (∃ d, p.column = m.output.column + d ∧
        (Cursor.ofOffset text offset).column = (Cursor.ofOffset text o).column + d)

theorem Explains.line_eq {text : List Char} {m : Mapping} {p : Cursor} {resolution : Resolution}
    {provenance : Provenance} (h : Explains text m p resolution provenance) :
    m.output.line = p.line := by
  cases provenance with
  | inserted e => exact h.2
  | copied start offset =>
    cases resolution with
    | char => exact congrArg Cursor.line h.2
    | boundary =>
      obtain ⟨-, -, -, hline, -⟩ := h
      exact hline

theorem append_eq_append_cons {α : Type} {as bs us vs : List α} {x : α}
    (h : as ++ bs = us ++ x :: vs) : (∃ ws, as = us ++ x :: ws ∧ vs = ws ++ bs) ∨
      ∃ ws, us = as ++ ws ∧ bs = ws ++ x :: vs := by
  rcases List.append_eq_append_iff.mp h with ⟨ws, rfl, hb⟩ | ⟨ws, rfl, hb⟩
  · exact Or.inr ⟨ws, rfl, hb⟩
  · cases ws with
    | nil => exact Or.inr ⟨[], by simp, by simpa using hb.symm⟩
    | cons y ws =>
      obtain ⟨rfl, rfl⟩ := List.cons_eq_cons.mp hb
      exact Or.inl ⟨ws, rfl, rfl⟩

variable {text xs u v rest : List Char} {c : Char}

theorem mem_of_standsAt (xs : List Char) {ys zs : List Char} {n : Nat} {c : Char}
    (h : Text.StandsAt (xs ++ ys ++ zs) n c) (hle : Text.byteLength xs ≤ n)
    (hlt : n < Text.byteLength xs + Text.byteLength ys) : c ∈ ys := by
  obtain ⟨before, after, htext, rfl⟩ := h
  rw [List.append_assoc] at htext
  obtain ⟨ws, rfl, hrest⟩ := Text.exists_between htext hle
  rw [Text.byteLength_append] at hlt
  rcases List.append_eq_append_iff.mp hrest with ⟨us, rfl, -⟩ | ⟨us, rfl, hus⟩
  · rw [Text.byteLength_append] at hlt
    omega
  · cases us with
    | nil =>
      rw [List.append_nil] at hlt
      omega
    | cons d us =>
      obtain ⟨rfl, -⟩ := List.cons_eq_cons.mp hus
      simp

/-- The anchors of a span are the places at which the coarse resolution records a mapping. -/
theorem isAnchor_iff_freshAfter (htext : text = xs ++ u ++ rest) :
    IsAnchor text (Text.byteLength xs) (Text.byteLength (xs ++ u)) ↔
      Mapping.freshAfter true u = true := by
  rw [Mapping.freshAfter_eq_true_iff]
  constructor
  · rintro (hstart | ⟨n, hle, ⟨before, after, hbefore, rfl⟩, hoffset⟩)
    · rw [Text.byteLength_append] at hstart
      exact Or.inl (Text.eq_nil_of_byteLength (by omega))
    · have hwhole : xs ++ u ++ rest = before ++ ['\n'] ++ after := by
        rw [← htext, hbefore, List.append_cons]
      have hcut : xs ++ u = before ++ ['\n'] := by
        apply Text.eq_of_append_eq hwhole
        rw [hoffset, Text.byteLength_append]
        rfl
      obtain ⟨front, -, hu⟩ := Text.exists_between hcut hle
      exact Or.inr ⟨front, hu⟩
  · rintro (rfl | ⟨front, rfl⟩)
    · rw [List.append_nil]
      exact Or.inl rfl
    · refine Or.inr ⟨Text.byteLength (xs ++ front), ?_, ⟨xs ++ front, rest, ?_, rfl⟩, ?_⟩
      · rw [Text.byteLength_append]
        exact Nat.le_add_right _ _
      · simp [htext]
      · rw [← List.append_assoc, Text.byteLength_append _ ['\n']]
        rfl

theorem isGreatest_anchor (xs rest : List Char) {w x : List Char} (hx : '\n' ∉ x)
    (hw : w = [] ∨ ∃ w', w = w' ++ ['\n']) :
    IsGreatest {n | n ≤ Text.byteLength xs + Text.byteLength (w ++ x) ∧
      IsAnchor (xs ++ w ++ x ++ rest) (Text.byteLength xs) n}
      (Text.byteLength xs + Text.byteLength w) := by
  constructor
  · refine ⟨?_, ?_⟩
    · rw [Text.byteLength_append]
      omega
    · rw [← Text.byteLength_append, List.append_assoc (xs ++ w)]
      exact (isAnchor_iff_freshAfter rfl).mpr (Mapping.freshAfter_eq_true_iff.mpr hw)
  · rintro n ⟨hn, rfl | ⟨k, hk, hstands, rfl⟩⟩
    · exact Nat.le_add_right _ _
    · by_contra hlt
      rw [Text.byteLength_append] at hn
      refine hx (mem_of_standsAt (xs ++ w) hstands ?_ ?_)
      · rw [Text.byteLength_append]
        omega
      · rw [Text.byteLength_append]
        omega

theorem explains_kept (htext : text = xs ++ (u ++ c :: v) ++ rest) (output : Cursor)
    (resolution : Resolution) : ∃ m, Mapping.lastAt (Mapping.ofKept resolution true output
      (Cursor.origin.advanceText xs) (u ++ c :: v)) (output.advanceText u) = some m ∧
      Explains text m (output.advanceText u) resolution
        (.copied (Text.byteLength xs) (Text.byteLength xs + Text.byteLength u)) := by
  have hoffset : ∀ w x, u = w ++ x → Cursor.ofOffset text (Text.byteLength xs +
      Text.byteLength w) = Cursor.origin.advanceText (xs ++ w) := by
    rintro w x rfl
    rw [← Text.byteLength_append, ← Cursor.ofOffset_byteLength (xs ++ w) (x ++ c :: v ++ rest)]
    simp [htext]
  cases resolution with
  | char =>
    refine ⟨_, Mapping.lastAt_ofKept_char true output _ u c v, ?_, rfl⟩
    rw [hoffset u [] (by simp), Cursor.advanceText_append]
  | boundary =>
    obtain ⟨w, x, rfl, hx, hw⟩ := Mapping.exists_lastLine u
    refine ⟨_, Mapping.lastAt_ofKept_boundary hx hw output _ c v,
      Text.byteLength xs + Text.byteLength w, ?_, ?_, ?_, ?_, Cursor.width x, ?_, ?_⟩
    · have hgreatest := isGreatest_anchor xs (c :: v ++ rest) hx hw
      simpa [htext] using hgreatest
    · rw [hoffset w x rfl, Cursor.advanceText_append]
    · rw [Cursor.advanceText_append, Cursor.advanceText_of_sameLine _ hx]
    · rw [hoffset w x rfl, hoffset (w ++ x) [] (by simp), ← List.append_assoc,
        Cursor.advanceText_append _ (xs ++ w), Cursor.advanceText_of_sameLine _ hx]
    · rw [Cursor.advanceText_append, Cursor.advanceText_of_sameLine _ hx]
    · rw [hoffset w x rfl, hoffset (w ++ x) [] (by simp), ← List.append_assoc,
        Cursor.advanceText_append _ (xs ++ w), Cursor.advanceText_of_sameLine _ hx]

theorem explains_swapped (anchor output : Cursor) (u : List Char) (c : Char) (v : List Char) :
    ∃ m, Mapping.lastAt (Mapping.ofSwapped anchor true output (u ++ c :: v))
      (output.advanceText u) = some m ∧ m.origin = anchor ∧
      m.output.line = (output.advanceText u).line := by
  obtain ⟨w, x, rfl, hx, hw⟩ := Mapping.exists_lastLine u
  refine ⟨⟨output.advanceText w, anchor⟩, ?_, rfl, ?_⟩
  · rw [Mapping.lastAt_ofSwapped anchor true output .origin,
      Mapping.lastAt_ofKept_boundary hx hw]
    rfl
  · rw [Cursor.advanceText_append, Cursor.advanceText_of_sameLine _ hx]

/-- Mappings answer for a part of a trace that starts at a position of the result: the last one at
or before each character explains it. -/
def Answers (text : List Char) (resolution : Resolution) (output : Cursor)
    (part : List (Char × Provenance)) (ms : List Mapping) : Prop :=
  ∀ us c p vs, part = us ++ (c, p) :: vs →
    ∃ m, Mapping.lastAt ms (output.advanceText (us.map Prod.fst)) = some m ∧
      Explains text m (output.advanceText (us.map Prod.fst)) resolution p

theorem Answers.append {resolution : Resolution} {output : Cursor}
    {part next : List (Char × Provenance)} {ms ns : List Mapping}
    (h : Answers text resolution output part ms)
    (k : Answers text resolution (output.advanceText (part.map Prod.fst)) next ns)
    (hns : ∀ m ∈ ns, (output.advanceText (part.map Prod.fst)).le m.output = true) :
    Answers text resolution output (part ++ next) (ms ++ ns) := by
  intro us c p vs hsplit
  rcases append_eq_append_cons hsplit with ⟨ws, hpart, -⟩ | ⟨ws, rfl, hnext⟩
  · obtain ⟨m, hlast, hexplains⟩ := h us c p ws hpart
    have hle : ((output.advanceText (us.map Prod.fst)).advance c).le
        (output.advanceText (part.map Prod.fst)) = true := by
      rw [hpart, List.map_append]
      exact Cursor.advance_le_advanceText output _ c _
    have hbeyond := Mapping.beyond_of_start_le hns hle
    exact ⟨m, (Mapping.lastAt_append_of_beyond hbeyond ms).trans hlast, hexplains⟩
  · obtain ⟨m, hlast, hexplains⟩ := k ws c p vs hnext
    rw [List.map_append, Cursor.advanceText_append]
    exact ⟨m, Mapping.lastAt_append_of_eq_some hlast ms, hexplains⟩

theorem answers_copied (htext : text = xs ++ v ++ rest) (output : Cursor)
    (resolution : Resolution) : Answers text resolution output
      (traceCopied (Text.byteLength xs) (Text.byteLength xs) v)
      (Mapping.ofKept resolution true output (Cursor.origin.advanceText xs) v) := by
  intro us c p vs hsplit
  obtain ⟨rfl, rfl⟩ := of_traceCopied_eq hsplit
  exact explains_kept htext output resolution

theorem answers_inserted {e : Edit} {anchor : Cursor}
    (h : anchor = Cursor.ofOffset text e.range.start) (output : Cursor) (resolution : Resolution) :
    Answers text resolution output (e.replacement.map (·, .inserted e))
      (Mapping.ofSwapped anchor true output e.replacement) := by
  intro us c p vs hsplit
  obtain ⟨u, v, hreplacement, rfl, hv⟩ := List.map_eq_append_iff.mp hsplit
  obtain ⟨d, v, rfl, hd, -⟩ := List.map_eq_cons_iff.mp hv
  obtain ⟨rfl, rfl⟩ := Prod.mk.inj hd
  obtain ⟨m, hlast, horigin, hline⟩ := explains_swapped anchor output u d v
  rw [hreplacement]
  simp only [List.map_map, Function.comp_def, List.map_id']
  exact ⟨m, hlast, horigin.trans h, hline⟩

theorem map_fst_inserted (e : Edit) (cs : List Char) :
    (cs.map (·, Provenance.inserted e)).map Prod.fst = cs := by
  simp [Function.comp_def]

theorem answers_traceFrom {es : List Edit} (xs : List Char) (output : Cursor)
    (resolution : Resolution) (htext : text = xs ++ rest)
    (hv : ∀ e ∈ es, e.range.isValidIn text = true)
    (hf : Span.Follows (Text.byteLength xs) (es.map Edit.range)) :
    (traceFrom text (Text.byteLength xs) es).map Prod.fst =
        (Edit.pieces (Text.byteLength xs) rest es).flatMap Edit.Piece.output ∧
      Answers text resolution output (traceFrom text (Text.byteLength xs) es)
        (Mapping.ofPieces resolution output (Cursor.origin.advanceText xs)
          (Edit.pieces (Text.byteLength xs) rest es)) := by
  induction es generalizing xs rest output with
  | nil =>
    have hslice : Text.slice (Text.byteLength xs) (Text.byteLength text) text = rest := by
      rw [htext, Text.slice_rest]
    have htext' : text = xs ++ rest ++ [] := by rw [htext, List.append_nil]
    simp only [traceFrom, hslice, Edit.pieces, Mapping.ofPieces, Mapping.ofPiece, List.append_nil]
    exact ⟨by simp [Edit.Piece.output], answers_copied htext' output resolution⟩
  | cons e es ih =>
    obtain ⟨before, old, after, rfl, hcut⟩ :=
      Edit.exists_cutAt htext (hv e List.mem_cons_self) hf.1
    have hcopied : text = xs ++ before ++ (old ++ after) := by rw [htext, List.append_assoc]
    have hanchor : Cursor.origin.advanceText (xs ++ before) =
        Cursor.ofOffset text e.range.start := by
      rw [← hcut.start, hcopied, Cursor.ofOffset_byteLength]
    obtain ⟨hchars, htail⟩ := ih (xs ++ before ++ old)
      ((output.advanceText before).advanceText e.replacement) hcut.text_eq
      (fun f hf => hv f (List.mem_cons_of_mem _ hf)) (hcut.stop ▸ hf.2)
    rw [hcut.stop] at hchars htail
    rw [Cursor.advanceText_append _ (xs ++ before)] at htail
    have hbehind : Answers text resolution (output.advanceText before)
        (e.replacement.map (·, .inserted e) ++ traceFrom text e.range.stop es)
        (Mapping.ofPieces resolution (output.advanceText before)
          (Cursor.origin.advanceText (xs ++ before))
          (.swapped old e.replacement :: Edit.pieces e.range.stop after es)) := by
      refine (answers_inserted hanchor (output.advanceText before) resolution).append ?_ ?_
      · rw [map_fst_inserted]
        exact htail
      · rw [map_fst_inserted]
        exact (Mapping.pointInto_ofPieces resolution _ _ _).start_le
    rw [hcut.pieces_cons, traceFrom, hcut.slice_eq]
    constructor
    · rw [List.map_append, List.map_append, map_fst_traceCopied, map_fst_inserted, hchars]
      rfl
    · refine (answers_copied hcopied output resolution).append ?_ ?_
      · rw [map_fst_traceCopied, ← Cursor.advanceText_append]
        exact hbehind
      · rw [map_fst_traceCopied]
        exact (Mapping.pointInto_ofPieces resolution _ _ _).start_le

/-- For every character of a result its trace is true, and the position map answers with a mapping
that explains it. -/
theorem lookup_of_ofEdits {id : String} {text : List Char} {edits : List Edit}
    {resolution : Resolution} {edited : Edited}
    (h : Edited.ofEdits id text edits (some resolution) = .ok edited) :
    ∃ map, edited.map = some map ∧ ∀ i (hi : i < edited.code.length), ∃ p,
      (trace text edits)[i]? = some (edited.code[i], p) ∧ Holds text edits edited.code[i] p ∧
      ∃ m ∈ map.mappings,
        map.lookup (Cursor.origin.advanceText (edited.code.take i)) = some m.origin ∧
        Explains text m (Cursor.origin.advanceText (edited.code.take i)) resolution p := by
  cases hcut : Edit.cut text edits with
  | error fault => simp [Edited.ofEdits, hcut, bind, Except.bind] at h
  | ok ps =>
    simp only [Edited.ofEdits, hcut, bind, Except.bind, pure, Except.pure, Except.ok.injEq] at h
    subst h
    refine ⟨_, rfl, fun i hi => ?_⟩
    have htruth := holds_trace hcut
    obtain ⟨hcheck, rfl⟩ := Edit.cut_eq_ok_iff.mp hcut
    obtain ⟨hv, hf⟩ := Edit.check_eq_ok_iff.mp hcheck
    obtain ⟨hchars, hanswers⟩ := answers_traceFrom [] .origin resolution rfl hv hf
    have hcode : (trace text edits).map Prod.fst =
        (Edit.pieces 0 text (Edit.sort edits)).flatMap Edit.Piece.output := hchars
    simp only [← hcode] at hi ⊢
    have hlen : i < (trace text edits).length := by simpa using hi
    have hsplit : trace text edits =
        (trace text edits).take i ++ (trace text edits)[i] :: (trace text edits).drop (i + 1) := by
      simp
    obtain ⟨m, hlast, hexplains⟩ := hanswers _ _ (trace text edits)[i].2 _ hsplit
    rw [List.map_take] at hlast hexplains
    refine ⟨(trace text edits)[i].2, ?_, ?_, m, Mapping.mem_of_lastAt hlast,
      Mapping.lookup_of_lastAt hlast hexplains.line_eq, hexplains⟩
    · simp [List.getElem?_eq_getElem hlen]
    · simpa using htruth _ (List.getElem_mem hlen)

def twoEdits : List Edit := [.replace ⟨6, 8⟩ "q\nr".toList, .delete ⟨0, 4⟩]

def twoEdited : Edited :=
  ⟨"\nxq\nr dy\nz".toList, some ⟨"a.ts", "😀\nxé dy\nz".toList,
    [⟨⟨0, 0⟩, ⟨0, 2⟩⟩, ⟨⟨1, 0⟩, ⟨1, 0⟩⟩, ⟨⟨1, 1⟩, ⟨1, 1⟩⟩, ⟨⟨2, 0⟩, ⟨1, 1⟩⟩, ⟨⟨2, 1⟩, ⟨1, 2⟩⟩,
      ⟨⟨3, 0⟩, ⟨2, 0⟩⟩]⟩⟩

theorem lookup_of_twoEdits :
    Edited.ofEdits "a.ts" "😀\nxé dy\nz".toList twoEdits (some .boundary) = .ok twoEdited ∧
      ∃ map, twoEdited.map = some map ∧ ∀ i (hi : i < twoEdited.code.length), ∃ p,
        (trace "😀\nxé dy\nz".toList twoEdits)[i]? = some (twoEdited.code[i], p) ∧
        Holds "😀\nxé dy\nz".toList twoEdits twoEdited.code[i] p ∧
        ∃ m ∈ map.mappings,
          map.lookup (Cursor.origin.advanceText (twoEdited.code.take i)) = some m.origin ∧
          Explains "😀\nxé dy\nz".toList m (Cursor.origin.advanceText (twoEdited.code.take i))
            .boundary p := by
  have hedited : Edited.ofEdits "a.ts" "😀\nxé dy\nz".toList twoEdits (some .boundary) =
      .ok twoEdited := by decide +kernel
  exact ⟨hedited, lookup_of_ofEdits hedited⟩

end Provenance

end Outdent
