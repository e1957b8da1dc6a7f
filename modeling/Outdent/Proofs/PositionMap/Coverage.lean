import Outdent.Proofs.Edit.Refusal
import Outdent.Proofs.PositionMap.Lookup
/-! # What a position map covers

The mappings of a result stand in its order and never step back in the document. The first character
of each line is mapped, so a position is found exactly on the lines that have a character, with the
line feed that ends a line counted as one of it. -/
namespace Outdent

/-- A character stands on a line if as many line feeds stand in front of it as the line's number. -/
def Text.HasCharacterOn (text : List Char) (line : Nat) : Prop :=
  ∃ before c after, text = before ++ c :: after ∧ before.count '\n' = line

namespace Text

variable {text : List Char} {line : Nat}

theorem hasCharacterOn_of_lt_count (h : line < text.count '\n') : HasCharacterOn text line := by
  induction text generalizing line with
  | nil => simp at h
  | cons c cs ih =>
    cases line with
    | zero => exact ⟨[], c, cs, rfl, rfl⟩
    | succ line =>
      by_cases hc : c = '\n'
      · subst hc
        have hrest : line < cs.count '\n' := by simpa using h
        obtain ⟨before, d, after, rfl, hcount⟩ := ih hrest
        exact ⟨'\n' :: before, d, after, rfl, by simp [hcount]⟩
      · have hrest : line + 1 < cs.count '\n' := by simpa [List.count_cons, hc] using h
        obtain ⟨before, d, after, rfl, hcount⟩ := ih hrest
        exact ⟨c :: before, d, after, rfl, by simp [hc, hcount]⟩

/-- The lines without a character are those past the end, and the last one if nothing follows the
last line feed. -/
theorem not_hasCharacterOn_iff : ¬ HasCharacterOn text line ↔
    text.count '\n' < line ∨
      line = text.count '\n' ∧ (text = [] ∨ ∃ front, text = front ++ ['\n']) := by
  constructor
  · intro h
    rcases Nat.lt_trichotomy line (text.count '\n') with hlt | rfl | hgt
    · exact absurd (hasCharacterOn_of_lt_count hlt) h
    · refine Or.inr ⟨rfl, ?_⟩
      rcases List.eq_nil_or_concat text with rfl | ⟨front, c, rfl⟩
      · exact Or.inl rfl
      · by_cases hc : c = '\n'
        · exact Or.inr ⟨front, by rw [hc, List.concat_eq_append]⟩
        · refine absurd ⟨front, c, [], by simp, ?_⟩ h
          simp [hc]
    · exact Or.inl hgt
  · rintro h ⟨before, c, after, rfl, rfl⟩
    rw [List.count_append] at h
    rcases h with hlt | ⟨heq, hnil | ⟨front, hfront⟩⟩
    · omega
    · simp at hnil
    · have hmem : '\n' ∈ c :: after := by
        have hlast := congrArg List.getLast? hfront
        rw [List.getLast?_append, List.getLast?_concat] at hlast
        exact List.mem_of_getLast? (by simpa [List.getLast?_cons] using hlast)
      have hpos := List.count_pos_iff.mpr hmem
      omega

end Text

namespace Cursor

theorem not_le_iff {a b : Cursor} :
    ¬ a.le b = true ↔ b.line < a.line ∨ b.line = a.line ∧ b.column < a.column := by
  rw [le_iff]
  omega

theorem le_of_not_le {a b : Cursor} (h : ¬ a.le b = true) : b.le a = true := by
  rw [not_le_iff] at h
  rw [le_iff]
  omega

theorem line_advanceText (p : Cursor) (cs : List Char) :
    (p.advanceText cs).line = p.line + cs.count '\n' := by
  induction cs generalizing p with
  | nil => rfl
  | cons c cs ih =>
    rw [advanceText_cons, ih, List.count_cons, advance]
    by_cases hc : c = '\n'
    · simp only [hc, if_true, beq_self_eq_true]
      omega
    · simp [hc]

theorem advanceText_of_freshAfter {cs : List Char} (h : Mapping.freshAfter true cs = true) :
    origin.advanceText cs = ⟨cs.count '\n', 0⟩ := by
  rw [advanceText_origin, endOf]
  rcases Mapping.freshAfter_eq_true_iff.mp h with rfl | ⟨front, rfl⟩
  · rfl
  · simp [width]

end Cursor

namespace Mapping

variable {origin start stop next : Cursor} {ms ns : List Mapping} {u v : List Char} {c : Char}
  {resolution : Resolution}

/-- Mappings whose positions in the document lie between two positions and never step back. -/
structure OriginsAlong (start stop : Cursor) (ms : List Mapping) : Prop where
  ordered : ms.Pairwise fun a b => a.origin.le b.origin = true
  start_le : ∀ m ∈ ms, start.le m.origin = true
  le_stop : ∀ m ∈ ms, m.origin.le stop = true

theorem OriginsAlong.append (h : OriginsAlong start stop ms) (k : OriginsAlong stop next ns)
    (hstart : start.le stop = true) (hnext : stop.le next = true) :
    OriginsAlong start next (ms ++ ns) := by
  constructor
  · refine List.pairwise_append.mpr ⟨h.ordered, k.ordered, ?_⟩
    intro a ha b hb
    exact Cursor.le_trans (h.le_stop a ha) (k.start_le b hb)
  · intro m hm
    rcases List.mem_append.mp hm with hm | hm
    · exact h.start_le m hm
    · exact Cursor.le_trans hstart (k.start_le m hm)
  · intro m hm
    rcases List.mem_append.mp hm with hm | hm
    · exact Cursor.le_trans (h.le_stop m hm) hnext
    · exact k.le_stop m hm

theorem ofKept_flip (resolution : Resolution) (fresh : Bool) (output origin : Cursor)
    (cs : List Char) : ofKept resolution fresh origin output cs =
      (ofKept resolution fresh output origin cs).map fun m => ⟨m.origin, m.output⟩ := by
  induction cs generalizing fresh output origin with
  | nil => rfl
  | cons c cs ih =>
    simp only [ofKept, ih _ (output.advance c) (origin.advance c)]
    split <;> simp

theorem originsAlong_ofKept (resolution : Resolution) (fresh : Bool) (output origin : Cursor)
    (cs : List Char) : OriginsAlong origin (origin.advanceText cs)
      (ofKept resolution fresh output origin cs) := by
  have hascending := ascending_ofKept resolution fresh origin output cs
  have hinto := pointInto_ofKept resolution fresh origin output cs
  rw [ofKept_flip resolution fresh output origin] at hascending hinto
  constructor
  · exact (List.pairwise_map.mp hascending).imp Cursor.le_of_not_le
  · intro m hm
    exact hinto.start_le _ (List.mem_map_of_mem hm)
  · intro m hm
    obtain ⟨u, c, v, rfl, horigin⟩ := hinto _ (List.mem_map_of_mem hm)
    rw [show m.origin = origin.advanceText u from horigin, Cursor.advanceText_append]
    exact Cursor.le_advanceText _ (c :: v)

theorem originsAlong_ofPiece (resolution : Resolution) (output origin : Cursor)
    (piece : Edit.Piece) : OriginsAlong origin (origin.advanceText piece.original)
      (ofPiece resolution output origin piece) := by
  cases piece with
  | kept cs => exact originsAlong_ofKept resolution true output origin cs
  | swapped old new =>
    simp only [ofPiece, ofSwapped_eq_map origin true output origin]
    constructor
    · exact List.pairwise_map.mpr (List.pairwise_of_forall fun _ _ => Cursor.le_refl origin)
    · intro m hm
      obtain ⟨n, -, rfl⟩ := List.mem_map.mp hm
      exact Cursor.le_refl origin
    · intro m hm
      obtain ⟨n, -, rfl⟩ := List.mem_map.mp hm
      exact Cursor.le_advanceText origin old

theorem originsAlong_ofPieces (resolution : Resolution) (output origin : Cursor)
    (ps : List Edit.Piece) :
    OriginsAlong origin (origin.advanceText (ps.flatMap Edit.Piece.original))
      (ofPieces resolution output origin ps) := by
  induction ps generalizing output origin with
  | nil => exact ⟨List.Pairwise.nil, by simp [ofPieces], by simp [ofPieces]⟩
  | cons piece ps ih =>
    rw [List.flatMap_cons, Cursor.advanceText_append]
    exact (originsAlong_ofPiece resolution output origin piece).append (ih _ _)
      (Cursor.le_advanceText _ _) (Cursor.le_advanceText _ _)

theorem freshAfter_of_append (h : freshAfter true (u ++ v) = true) : freshAfter true v = true := by
  rcases List.eq_nil_or_concat v with rfl | ⟨front, d, rfl⟩
  · rfl
  · simpa [freshAfter] using h

theorem exists_of_fresh_ofKept (resolution : Resolution) {fresh : Bool}
    (h : freshAfter fresh u = true) (output origin : Cursor) (c : Char) (v : List Char) :
    ∃ m ∈ ofKept resolution fresh output origin (u ++ c :: v), m.output = output.advanceText u := by
  rw [ofKept_append, h]
  simp only [ofKept, Bool.true_or, if_true]
  exact ⟨_, List.mem_append_right _ List.mem_cons_self, rfl⟩

theorem exists_of_fresh_ofPiece (resolution : Resolution) {piece : Edit.Piece}
    (h : freshAfter true u = true) (hpiece : piece.output = u ++ c :: v) (output origin : Cursor) :
    ∃ m ∈ ofPiece resolution output origin piece, m.output = output.advanceText u := by
  cases piece with
  | kept cs =>
    obtain rfl : cs = u ++ c :: v := hpiece
    exact exists_of_fresh_ofKept resolution h output origin c v
  | swapped old new =>
    obtain rfl : new = u ++ c :: v := hpiece
    obtain ⟨m, hm, hout⟩ := exists_of_fresh_ofKept .boundary h output origin c v
    refine ⟨⟨m.output, origin⟩, ?_, hout⟩
    simp only [ofPiece, ofSwapped_eq_map origin true output origin]
    exact List.mem_map_of_mem hm

theorem exists_of_fresh_ofPieces (resolution : Resolution) {ps : List Edit.Piece}
    (h : freshAfter true u = true) (hps : ps.flatMap Edit.Piece.output = u ++ c :: v)
    (output origin : Cursor) :
    ∃ m ∈ ofPieces resolution output origin ps, m.output = output.advanceText u := by
  induction ps generalizing u output origin with
  | nil => simp at hps
  | cons piece ps ih =>
    rw [List.flatMap_cons] at hps
    rcases Provenance.append_eq_append_cons hps with ⟨ws, hpiece, -⟩ | ⟨ws, rfl, hrest⟩
    · obtain ⟨m, hm, hout⟩ := exists_of_fresh_ofPiece resolution h hpiece output origin
      exact ⟨m, List.mem_append_left _ hm, hout⟩
    · obtain ⟨m, hm, hout⟩ := ih (freshAfter_of_append h) hrest
        (output.advanceText piece.output) (origin.advanceText piece.original)
      refine ⟨m, List.mem_append_right _ hm, ?_⟩
      rw [hout, Cursor.advanceText_append]

theorem hasCharacterOn_of_mem {ps : List Edit.Piece} {m : Mapping}
    (hm : m ∈ ofPieces resolution .origin origin ps) :
    Text.HasCharacterOn (ps.flatMap Edit.Piece.output) m.output.line := by
  obtain ⟨before, d, after, htext, hout⟩ := pointInto_ofPieces resolution .origin origin ps m hm
  refine ⟨before, d, after, htext, ?_⟩
  rw [hout, Cursor.line_advanceText]
  exact (Nat.zero_add _).symm

theorem exists_lineStart_of_hasCharacterOn {ps : List Edit.Piece} {line : Nat}
    (h : Text.HasCharacterOn (ps.flatMap Edit.Piece.output) line) :
    ∃ m ∈ ofPieces resolution .origin origin ps, m.output = ⟨line, 0⟩ := by
  obtain ⟨before, d, after, htext, hcount⟩ := h
  obtain ⟨w, x, rfl, hx, hw⟩ := exists_lastLine before
  have hfresh : freshAfter true w = true := freshAfter_eq_true_iff.mpr hw
  obtain ⟨e, rest, hrest⟩ : ∃ e rest, x ++ d :: after = e :: rest :=
    List.exists_cons_of_ne_nil (by simp)
  rw [List.append_assoc, hrest] at htext
  obtain ⟨m, hm, hout⟩ := exists_of_fresh_ofPieces resolution hfresh htext .origin origin
  refine ⟨m, hm, ?_⟩
  rw [List.count_append, List.count_eq_zero_of_not_mem hx, Nat.add_zero] at hcount
  rw [hout, Cursor.advanceText_of_freshAfter hfresh, hcount]

end Mapping

namespace PositionMap

theorem isSome_lookup_iff {map : PositionMap} (h : Mapping.Ascending map.mappings)
    (p : Cursor) : (map.lookup p).isSome = true ↔
      ∃ m ∈ map.mappings, m.output.line = p.line ∧ m.output.le p = true := by
  constructor
  · intro hsome
    unfold lookup at hsome
    split at hsome
    · next m hlast =>
      have hm := List.mem_filter.mp (List.mem_of_getLast? hlast)
      split at hsome
      · next hline => exact ⟨m, hm.1, hline, hm.2⟩
      · simp at hsome
    · simp at hsome
  · rintro ⟨m, hm, hline, hle⟩
    obtain ⟨last, hlast⟩ : ∃ last, Mapping.lastAt map.mappings p = some last := by
      apply Option.isSome_iff_exists.mp
      rw [Mapping.lastAt, List.getLast?_isSome]
      exact List.ne_nil_of_mem (List.mem_filter.mpr ⟨hm, hle⟩)
    have hbefore : last.output.le p = true :=
      (List.mem_filter.mp (List.mem_of_getLast? hlast)).2
    have hline' : last.output.line = p.line := by
      rcases Mapping.le_of_lastAt h hlast hm hle with rfl | hlt
      · exact hline
      · rw [Cursor.not_le_iff] at hlt
        rw [Cursor.le_iff] at hbefore
        omega
    rw [Mapping.lookup_of_lastAt hlast hline']
    rfl

structure Covers (map : PositionMap) (code : List Char) : Prop where
  ascending : map.mappings.Pairwise fun a b => a.output.line < b.output.line ∨
    a.output.line = b.output.line ∧ a.output.column < b.output.column
  ordered : map.mappings.Pairwise fun a b => a.origin.le b.origin = true
  lineStart : ∀ line, Text.HasCharacterOn code line → ∃ m ∈ map.mappings, m.output = ⟨line, 0⟩
  found : ∀ line column,
    (map.lookup ⟨line, column⟩).isSome = true ↔ Text.HasCharacterOn code line
  missing : ∀ line column, map.lookup ⟨line, column⟩ = none ↔
    code.count '\n' < line ∨
      line = code.count '\n' ∧ (code = [] ∨ ∃ front, code = front ++ ['\n'])

/-- Mappings are recorded in strict order of the result and never step back in the document. Every
line of the result with a character, be it a line feed, is mapped at its start, and found at every
column; a position is missed only past the last line, and on it if it is empty. -/
theorem covers_of_ofEdits {id : String} {text : List Char} {edits : List Edit}
    {resolution : Resolution} {edited : Edited}
    (h : Edited.ofEdits id text edits (some resolution) = .ok edited) :
    ∃ map, edited.map = some map ∧ map.Covers edited.code := by
  obtain ⟨ps, -, rfl⟩ := Edited.ofEdits_eq_ok_iff.mp h
  refine ⟨_, rfl, ?_⟩
  have hascending := Mapping.ascending_ofPieces resolution .origin .origin ps
  have horigins := Mapping.originsAlong_ofPieces resolution .origin .origin ps
  have hfound : ∀ line column, (lookup
      ⟨id, text, Mapping.ofPieces resolution .origin .origin ps⟩ ⟨line, column⟩).isSome = true ↔
        Text.HasCharacterOn (ps.flatMap Edit.Piece.output) line := by
    intro line column
    rw [isSome_lookup_iff hascending]
    constructor
    · rintro ⟨m, hm, rfl, -⟩
      exact Mapping.hasCharacterOn_of_mem hm
    · intro hline
      obtain ⟨m, hm, hout⟩ := Mapping.exists_lineStart_of_hasCharacterOn hline
      refine ⟨m, hm, ?_, ?_⟩
      · rw [hout]
      · rw [hout, Cursor.le_iff]
        exact Or.inr ⟨rfl, Nat.zero_le _⟩
  refine ⟨hascending.imp Cursor.not_le_iff.mp, horigins.ordered,
    fun _ => Mapping.exists_lineStart_of_hasCharacterOn, hfound, ?_⟩
  intro line column
  rw [← Text.not_hasCharacterOn_iff, ← hfound line column, Option.not_isSome_iff_eq_none]

/-- A result of three line feeds, each from a piece of its own, and an empty last line. -/
def feedEdits : List Edit := [.replace ⟨2, 3⟩ "\n".toList, .delete ⟨0, 1⟩]

def feedMap : PositionMap :=
  ⟨"a.ts", "a\nb\n".toList, [⟨⟨0, 0⟩, ⟨0, 1⟩⟩, ⟨⟨1, 0⟩, ⟨1, 0⟩⟩, ⟨⟨2, 0⟩, ⟨1, 1⟩⟩]⟩

theorem covers_of_feedEdits :
    Edited.ofEdits "a.ts" "a\nb\n".toList feedEdits (some .boundary) =
        .ok ⟨"\n\n\n".toList, some feedMap⟩ ∧
      feedMap.Covers "\n\n\n".toList := by
  have hedited : Edited.ofEdits "a.ts" "a\nb\n".toList feedEdits (some .boundary) =
      .ok ⟨"\n\n\n".toList, some feedMap⟩ := by decide +kernel
  obtain ⟨map, hmap, hcovers⟩ := covers_of_ofEdits hedited
  obtain rfl := Option.some.inj hmap
  exact ⟨hedited, hcovers⟩

end PositionMap

end Outdent
