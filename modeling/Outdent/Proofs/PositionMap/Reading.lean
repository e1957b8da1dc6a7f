import Mathlib.Data.List.Chain
import Mathlib.Data.List.GetD
import Mathlib.Tactic.Common
import Mathlib.Tactic.Ring
import Outdent.PositionMap.Json
import Outdent.Proofs.Json.Reading
import Outdent.Proofs.PositionMap.Recording
/-! # Reading a written position map

A reader of the written form: the text is read as JSON, its mappings are taken apart at semicolons
and commas, the quantities of each are decoded and summed up, and a position is looked up among
what comes out. The reader knows the format and not the writer. What it reads is the map that was
written. -/
namespace Outdent

namespace Vlq

def value? (c : Char) : Option Nat := alphabet.idxOf? c

/-- Reads quantities one after another. `sum` is what the groups of an open quantity amount to, and
the next group counts `weight` times, which is one where none is open. -/
def decodeFrom (sum weight : Nat) : List Char → Option (List Int)
  | [] => if weight = 1 then some [] else none
  | c :: cs => do
    let d ← value? c
    if d < 32 then (decodeFrom 0 1 cs).map (unzigzag (sum + d * weight) :: ·)
    else decodeFrom (sum + (d - 32) * weight) (weight * 32) cs

def decode (cs : List Char) : Option (List Int) := decodeFrom 0 1 cs

theorem value?_digit {n : Nat} (h : n < 64) : value? (digit n) = some n := by
  have hall : ∀ k < 64, value? (digit k) = some k := by decide
  exact hall n h

theorem decodeFrom_groups (n sum weight : Nat) (rest : List Char) :
    decodeFrom sum weight ((groups n).map digit ++ rest) =
      (decodeFrom 0 1 rest).map (unzigzag (sum + n * weight) :: ·) := by
  fun_induction groups n generalizing sum weight with
  | case1 n h =>
    simp [decodeFrom, value?_digit (show n < 64 by omega), h]
  | case2 n h ih =>
    have hdigit := value?_digit (show n % 32 + 32 < 64 by omega)
    have hsum : sum + n % 32 * weight + n / 32 * (weight * 32) = sum + n * weight := by
      have hn := Nat.mod_add_div n 32
      calc sum + n % 32 * weight + n / 32 * (weight * 32)
          = sum + (n % 32 + 32 * (n / 32)) * weight := by ring
        _ = sum + n * weight := by rw [hn]
    simp [decodeFrom, hdigit, ih, hsum]

theorem decode_encode (n : Int) (rest : List Char) :
    decode (encode n ++ rest) = (decode rest).map (n :: ·) := by
  rw [decode, encode, decodeFrom_groups, Nat.zero_add, Nat.mul_one, unzigzag_zigzag, decode]

theorem decode_flatMap_encode (ns : List Int) : decode (ns.flatMap encode) = some ns := by
  induction ns with
  | nil => rfl
  | cons n ns ih => rw [List.flatMap_cons, decode_encode, ih]; rfl

example : decode "2HwBh".toList = none ∧ decode "2HwBD".toList = some [123, 24, -1] := by decide

theorem digit_mem_alphabet {n : Nat} (h : n < 64) : digit n ∈ alphabet := by
  have hlength : n < alphabet.length := h
  rw [digit, List.getD_eq_getElem _ _ hlength]
  exact List.getElem_mem hlength

theorem lt_of_mem_groups {n d : Nat} (h : d ∈ groups n) : d < 64 := by
  fun_induction groups n with
  | case1 n hn =>
    obtain rfl := List.mem_singleton.mp h
    omega
  | case2 n hn ih =>
    rcases List.mem_cons.mp h with rfl | h
    · omega
    · exact ih h

theorem mem_alphabet_of_mem_encode {n : Int} {c : Char} (h : c ∈ encode n) : c ∈ alphabet := by
  obtain ⟨d, hd, rfl⟩ := List.mem_map.mp h
  exact digit_mem_alphabet (lt_of_mem_groups hd)

theorem encode_ne_nil (n : Int) : encode n ≠ [] := by
  rw [encode, groups]
  split <;> simp

end Vlq

/-! ## The reader -/

/-- A mapping as it was read: a position of the result, the source, by its index, with the position
there that it comes from, and the index of a name. -/
structure Entry where
  output : Cursor
  origin : Option (Nat × Cursor)
  name : Option Nat
deriving DecidableEq

namespace Entry

structure Totals where
  column : Int
  source : Int
  line : Int
  originColumn : Int
  name : Int

def Totals.advance (t : Totals) (fields : List Int) : Totals where
  column := t.column + fields.getD 0 0
  source := t.source + fields.getD 1 0
  line := t.line + fields.getD 2 0
  originColumn := t.originColumn + fields.getD 3 0
  name := t.name + fields.getD 4 0

/-- The mapping that totals stand for. It has one field, four with a source or five with a name. -/
def ofTotals (row : Nat) (t : Totals) (size : Nat) : Option Entry := do
  let output : Cursor := ⟨row, ← t.column.toNat?⟩
  if size = 1 then return ⟨output, none, none⟩
  else
    let origin := (← t.source.toNat?, ⟨← t.line.toNat?, ← t.originColumn.toNat?⟩)
    if size = 4 then return ⟨output, some origin, none⟩
    else if size = 5 then return ⟨output, some origin, some (← t.name.toNat?)⟩
    else none

def readRow (row : Nat) (t : Totals) : List (List Char) → Option (List Entry × Totals)
  | [] => some ([], t)
  | segment :: segments => do
    let fields ← Vlq.decode segment
    let entry ← ofTotals row (t.advance fields) fields.length
    let (entries, t) ← readRow row (t.advance fields) segments
    return (entry :: entries, t)

/-- Reads rows one after another. The output column is counted anew in each, the others go on. -/
def readRows (row : Nat) (t : Totals) : List (List (List Char)) → Option (List Entry)
  | [] => some []
  | segments :: rows => do
    let (entries, t) ← readRow row t segments
    let later ← readRows (row + 1) { t with column := 0 } rows
    return entries ++ later

def segments (written : List Char) : List (List (List Char)) :=
  (written.splitOn ';').map fun row => if row = [] then [] else row.splitOn ','

def readMappings (written : List Char) : Option (List Entry) :=
  readRows 0 ⟨0, 0, 0, 0, 0⟩ (segments written)

def search (entries : List Entry) (position : Cursor) : Option Entry :=
  ((entries.filter (·.output.le position)).getLast?).filter (·.output.line = position.line)

def ofMapping (m : Mapping) : Entry := ⟨m.output, some (0, m.origin), none⟩

end Entry

namespace PositionMap

/-! ## The written form in rows -/

open Entry (Totals)

def fieldsFrom (previous m : Mapping) : List Int :=
  let column := if m.output.line - previous.output.line = 0 then previous.output.column else 0
  [(m.output.column : Int) - column, 0, (m.origin.line : Int) - previous.origin.line,
    (m.origin.column : Int) - previous.origin.column]

def segmentFrom (previous m : Mapping) : List Char := (fieldsFrom previous m).flatMap Vlq.encode

/-- The segments that follow a mapping, row by row; the first row is the rest of its own. -/
def rowsFrom (previous : Mapping) : List Mapping → List (List (List Char))
  | [] => [[]]
  | m :: ms =>
    List.replicate (m.output.line - previous.output.line) [] ++
      (segmentFrom previous m :: (rowsFrom m ms).headD []) :: (rowsFrom m ms).tail

def rowText (segments : List (List Char)) : List Char := [','].intercalate segments

theorem exists_rowsFrom (previous : Mapping) (ms : List Mapping) :
    ∃ row rows, rowsFrom previous ms = row :: rows := by
  cases ms with
  | nil => exact ⟨[], [], rfl⟩
  | cons m ms =>
    simp only [rowsFrom]
    cases m.output.line - previous.output.line with
    | zero => exact ⟨_, _, rfl⟩
    | succ n => exact ⟨_, _, rfl⟩

theorem intercalate_replicate_nil (n : Nat) (row : List Char) (rows : List (List Char)) :
    [';'].intercalate (List.replicate n [] ++ row :: rows) =
      List.replicate n ';' ++ [';'].intercalate (row :: rows) := by
  induction n with
  | zero => rfl
  | succ n ih =>
    rw [List.replicate_succ, List.replicate_succ, List.cons_append, List.cons_append, ← ih]
    cases n <;> simp [List.replicate_succ, List.intercalate_cons_cons]

theorem rowText_cons (segment : List Char) (row : List (List Char)) :
    rowText (segment :: row) = segment ++ (if row = [] then [] else [',']) ++ rowText row := by
  cases row with
  | nil => simp [rowText]
  | cons next row => simp [rowText, List.intercalate_cons_cons]

theorem mem_rowText {row : List (List Char)} {c : Char} (h : c ∈ rowText row) :
    c = ',' ∨ ∃ segment ∈ row, c ∈ segment := by
  induction row with
  | nil => contradiction
  | cons segment row ih =>
    rw [rowText_cons] at h
    rcases List.mem_append.mp h with h | h
    · rcases List.mem_append.mp h with h | h
      · exact Or.inr ⟨segment, List.mem_cons_self, h⟩
      · left
        split at h
        · contradiction
        · exact List.mem_singleton.mp h
    · rcases ih h with h | ⟨s, hs, hc⟩
      · exact Or.inl h
      · exact Or.inr ⟨s, List.mem_cons_of_mem _ hs, hc⟩

theorem intercalate_append_cons (front row : List Char) (rows : List (List Char)) :
    [';'].intercalate ((front ++ row) :: rows) = front ++ [';'].intercalate (row :: rows) := by
  cases rows with
  | nil => simp
  | cons next rows => simp [List.intercalate_cons_cons]

/-- What is written behind a mapping are the rows that follow it, with a comma in front if a
segment follows on its own row. -/
theorem renderMappings_eq (previous : Mapping) (opened : Bool) (ms : List Mapping) :
    renderMappings previous opened ms =
      (if opened = true ∧ (rowsFrom previous ms).headD [] ≠ [] then [','] else []) ++
        [';'].intercalate ((rowsFrom previous ms).map rowText) := by
  induction ms generalizing previous opened with
  | nil => simp [renderMappings, rowsFrom, rowText]
  | cons m ms ih =>
    obtain ⟨row, rows, hrow⟩ := exists_rowsFrom m ms
    have hsegment : segmentFrom previous m ++ renderMappings m true ms =
        [';'].intercalate (rowText (segmentFrom previous m :: row) :: rows.map rowText) := by
      rw [ih m true, hrow, rowText_cons, intercalate_append_cons, List.append_assoc]
      cases row <;> simp
    have hwritten : renderMappings previous opened (m :: ms) =
        (if m.output.line - previous.output.line = 0 then (if opened then [','] else [])
          else List.replicate (m.output.line - previous.output.line) ';') ++
        (segmentFrom previous m ++ renderMappings m true ms) := by
      simp [renderMappings, segmentFrom, fieldsFrom]
    have hempty : rowText [] = [] := rfl
    simp only [rowsFrom, hrow, List.headD_cons, List.tail_cons]
    rw [hwritten, hsegment, List.map_append, List.map_replicate, List.map_cons, hempty,
      intercalate_replicate_nil, ← List.append_assoc]
    congr 1
    by_cases hline : m.output.line - previous.output.line = 0
    · simp [hline]
    · obtain ⟨n, hn⟩ := Nat.exists_eq_succ_of_ne_zero hline
      simp [hn, List.replicate_succ]

def Follow (previous : Mapping) (ms : List Mapping) : Prop :=
  (previous :: ms).IsChain fun a b => a.output.le b.output = true

theorem exists_of_mem_rowsFrom {previous : Mapping} {ms : List Mapping} (h : Follow previous ms) :
    ∀ row ∈ rowsFrom previous ms, ∀ segment ∈ row,
      ∃ p m : Mapping, p.output.le m.output = true ∧ segment = segmentFrom p m := by
  induction ms generalizing previous with
  | nil => simp [rowsFrom]
  | cons m ms ih =>
    obtain ⟨hm, hms⟩ := List.isChain_cons_cons.mp h
    obtain ⟨first, rows, hrows⟩ := exists_rowsFrom m ms
    have hlater := ih hms
    rw [hrows] at hlater
    intro row hrow segment hsegment
    simp only [rowsFrom, hrows, List.headD_cons, List.tail_cons] at hrow
    rcases List.mem_append.mp hrow with hrow | hrow
    · rw [List.eq_of_mem_replicate hrow] at hsegment
      contradiction
    · rcases List.mem_cons.mp hrow with rfl | hrow
      · rcases List.mem_cons.mp hsegment with rfl | hsegment
        · exact ⟨previous, m, hm, rfl⟩
        · exact hlater first List.mem_cons_self segment hsegment
      · exact hlater row (List.mem_cons_of_mem _ hrow) segment hsegment

theorem mem_alphabet_of_mem_segmentFrom {previous m : Mapping} {c : Char}
    (h : c ∈ segmentFrom previous m) : c ∈ Vlq.alphabet := by
  obtain ⟨n, -, hc⟩ := List.mem_flatMap.mp h
  exact Vlq.mem_alphabet_of_mem_encode hc

theorem segmentFrom_ne_nil (previous m : Mapping) : segmentFrom previous m ≠ [] := by
  simp [segmentFrom, fieldsFrom, Vlq.encode_ne_nil]

theorem decode_segmentFrom (previous m : Mapping) :
    Vlq.decode (segmentFrom previous m) = some (fieldsFrom previous m) :=
  Vlq.decode_flatMap_encode _

theorem segments_renderMappings {previous : Mapping} {ms : List Mapping}
    (h : Follow previous ms) :
    Entry.segments (renderMappings previous false ms) = rowsFrom previous ms := by
  have hsegments := exists_of_mem_rowsFrom h
  have hseparators : ',' ∉ Vlq.alphabet ∧ ';' ∉ Vlq.alphabet := by decide
  have hrow : ∀ row ∈ rowsFrom previous ms,
      (if rowText row = [] then [] else (rowText row).splitOn ',') = row ∧ ';' ∉ rowText row := by
    intro row hmem
    have hplain : ∀ segment ∈ row, segment ≠ [] ∧ ',' ∉ segment ∧ ';' ∉ segment := by
      intro segment hs
      obtain ⟨p, m, -, rfl⟩ := hsegments row hmem segment hs
      exact ⟨segmentFrom_ne_nil p m,
        fun hc => hseparators.1 (mem_alphabet_of_mem_segmentFrom hc),
        fun hc => hseparators.2 (mem_alphabet_of_mem_segmentFrom hc)⟩
    constructor
    · cases row with
      | nil => rfl
      | cons segment row =>
        have hne : rowText (segment :: row) ≠ [] := by
          rw [rowText_cons]
          simp [(hplain segment List.mem_cons_self).1]
        rw [if_neg hne, rowText, List.splitOn_intercalate]
        · exact fun s hs => (hplain s hs).2.1
        · exact List.cons_ne_nil _ _
    · intro hc
      rcases mem_rowText hc with hc | ⟨segment, hs, hc⟩
      · contradiction
      · exact (hplain segment hs).2.2 hc
  have hrows : (renderMappings previous false ms).splitOn ';' =
      (rowsFrom previous ms).map rowText := by
    rw [renderMappings_eq, if_neg (by simp), List.nil_append, List.splitOn_intercalate]
    · rintro text htext
      obtain ⟨row, hmem, rfl⟩ := List.mem_map.mp htext
      exact (hrow row hmem).2
    · obtain ⟨row, rows, hcons⟩ := exists_rowsFrom previous ms
      simp [hcons]
  rw [Entry.segments, hrows, List.map_map]
  exact (List.map_congr_left fun row hmem => (hrow row hmem).1).trans (List.map_id _)

/-! ## What is read back -/

def totalsAt (m : Mapping) : Totals := ⟨m.output.column, 0, m.origin.line, m.origin.column, 0⟩

theorem readRows_replicate (n row : Nat) (t : Totals) (rows : List (List (List Char))) :
    Entry.readRows row t (List.replicate n [] ++ rows) =
      Entry.readRows (row + n) (if n = 0 then t else { t with column := 0 }) rows := by
  induction n generalizing row t with
  | zero => rfl
  | succ n ih =>
    have hrow : row + 1 + n = row + (n + 1) := by omega
    simp [List.replicate_succ, Entry.readRows, Entry.readRow, ih, hrow]

theorem readRows_cons {row : Nat} {t : Totals} {segment : List Char} {fields : List Int}
    {entry : Entry} (hfields : Vlq.decode segment = some fields)
    (hentry : Entry.ofTotals row (t.advance fields) fields.length = some entry)
    (segments : List (List Char)) (rows : List (List (List Char))) :
    Entry.readRows row t ((segment :: segments) :: rows) =
      (Entry.readRows row (t.advance fields) (segments :: rows)).map (entry :: ·) := by
  cases hread : Entry.readRow row (t.advance fields) segments with
  | none => simp [Entry.readRows, Entry.readRow, hfields, hentry, hread]
  | some read =>
    cases hlater : Entry.readRows (row + 1) { read.2 with column := 0 } rows <;>
      simp [Entry.readRows, Entry.readRow, hfields, hentry, hread, hlater]

theorem advance_fieldsFrom (previous m : Mapping) :
    (if m.output.line - previous.output.line = 0 then totalsAt previous
      else { totalsAt previous with column := 0 }).advance (fieldsFrom previous m) =
      totalsAt m := by
  by_cases hline : m.output.line - previous.output.line = 0
  · simp [hline, Totals.advance, fieldsFrom, totalsAt]
  · simp [hline, Totals.advance, fieldsFrom, totalsAt]

theorem ofTotals_totalsAt (m : Mapping) :
    Entry.ofTotals m.output.line (totalsAt m) 4 = some (Entry.ofMapping m) := rfl

theorem readRows_rowsFrom {previous : Mapping} {ms : List Mapping} (h : Follow previous ms) :
    Entry.readRows previous.output.line (totalsAt previous) (rowsFrom previous ms) =
      some (ms.map Entry.ofMapping) := by
  -- the totals stand where the mapping before stands, and its steps take them to the next one
  induction ms generalizing previous with
  | nil => rfl
  | cons m ms ih =>
    obtain ⟨hm, hms⟩ := List.isChain_cons_cons.mp h
    obtain ⟨row, rows, hrows⟩ := exists_rowsFrom m ms
    have hline : previous.output.line + (m.output.line - previous.output.line) =
        m.output.line := by
      rw [Cursor.le_iff] at hm
      omega
    have hadvance := advance_fieldsFrom previous m
    have hrest := ih hms
    rw [hrows] at hrest
    simp only [rowsFrom, hrows, List.headD_cons, List.tail_cons]
    have hentry := ofTotals_totalsAt m
    rw [← hadvance] at hentry
    rw [readRows_replicate, hline, readRows_cons (decode_segmentFrom previous m) hentry, hadvance,
      hrest]
    rfl

def written (map : PositionMap) : List Char :=
  renderMappings ⟨.origin, .origin⟩ false map.mappings

theorem follow_of_ascending {ms : List Mapping} (h : Mapping.Ascending ms) :
    Follow ⟨.origin, .origin⟩ ms := by
  have htotal : ∀ a b : Mapping, ¬ b.output.le a.output = true → a.output.le b.output = true := by
    intro a b hab
    rw [Cursor.le_iff] at hab ⊢
    omega
  have horigin : ∀ m ∈ ms, Cursor.origin.le m.output = true := by
    intro m _
    rw [Cursor.le_iff]
    simp only [Cursor.origin]
    omega
  have hpairwise : ms.Pairwise fun a b => a.output.le b.output = true := h.imp (htotal _ _)
  exact List.Pairwise.isChain (List.pairwise_cons.mpr ⟨horigin, hpairwise⟩)

theorem mem_of_mem_renderMappings {previous : Mapping} {opened : Bool} {ms : List Mapping}
    {c : Char} (h : c ∈ renderMappings previous opened ms) : c ∈ Vlq.alphabet ++ [',', ';'] := by
  induction ms generalizing previous opened with
  | nil => contradiction
  | cons m ms ih =>
    simp only [renderMappings, List.mem_append] at h ⊢
    rcases h with ((((h | h) | h) | h) | h) | h
    · split at h
      · split at h
        · exact Or.inr (List.mem_cons.mpr (Or.inl (List.mem_singleton.mp h)))
        · contradiction
      · rw [List.eq_of_mem_replicate h]
        exact Or.inr (by decide)
    · exact Or.inl (Vlq.mem_alphabet_of_mem_encode h)
    · exact Or.inl (Vlq.mem_alphabet_of_mem_encode h)
    · exact Or.inl (Vlq.mem_alphabet_of_mem_encode h)
    · exact Or.inl (Vlq.mem_alphabet_of_mem_encode h)
    · exact List.mem_append.mp (ih h)

theorem quote_written (map : PositionMap) :
    Json.quote map.written = '"' :: map.written ++ ['"'] := by
  have hplain : (Vlq.alphabet ++ [',', ';']).all (fun c => Json.escape c == [c]) = true := by decide
  have hescape : map.written.flatMap Json.escape = map.written := by
    refine Json.flatMap_escape_of_plain fun c hc => ?_
    exact eq_of_beq (List.all_eq_true.mp hplain c (mem_of_mem_renderMappings hc))
  rw [Json.quote, hescape]

theorem toJson_eq (map : PositionMap) : map.toJson =
    '\x7b' :: (Json.quote "version".toList ++ ':' :: '3' :: ',' ::
      (Json.quote "sources".toList ++ ':' :: '[' :: (Json.quote map.source.toList ++ ']' :: ',' ::
        (Json.quote "sourcesContent".toList ++ ':' :: '[' :: (Json.quote map.contents ++
          ']' :: ',' :: (Json.quote "names".toList ++ ':' :: '[' :: ']' :: ',' ::
            (Json.quote "mappings".toList ++ ':' :: (Json.quote map.written ++ ['\x7d'])))))))) := by
  have hsources : "\x7b\"version\":3,\"sources\":[".toList =
      '\x7b' :: (Json.quote "version".toList ++ ':' :: '3' :: ',' ::
        (Json.quote "sources".toList ++ [':', '['])) := by decide
  have hcontents : "],\"sourcesContent\":[".toList =
      ']' :: ',' :: (Json.quote "sourcesContent".toList ++ [':', '[']) := by decide
  have hnames : "],\"names\":[],\"mappings\":\"".toList =
      ']' :: ',' :: (Json.quote "names".toList ++ ':' :: '[' :: ']' :: ',' ::
        (Json.quote "mappings".toList ++ [':', '"'])) := by decide
  have hend : "\"\x7d".toList = ['"', '\x7d'] := by decide
  calc map.toJson
    _ = "\x7b\"version\":3,\"sources\":[".toList ++ Json.quote map.source.toList ++
        "],\"sourcesContent\":[".toList ++ Json.quote map.contents ++
        "],\"names\":[],\"mappings\":\"".toList ++ map.written ++ "\"\x7d".toList := rfl
    _ = _ := by
      simp only [hsources, hcontents, hnames, hend, quote_written, List.append_assoc,
        List.cons_append, List.nil_append]

theorem parse_toJson (map : PositionMap) : Json.parse map.toJson =
    some (.object [("version".toList, .number 3 0),
      ("sources".toList, .array [.string map.source.toList]),
      ("sourcesContent".toList, .array [.string map.contents]),
      ("names".toList, .array []), ("mappings".toList, .string map.written)]) := by
  have hlength : 7 ≤ map.toJson.length := by
    rw [toJson_eq]
    simp only [List.length_cons, List.length_append]
    omega
  obtain ⟨depth, hdepth⟩ := Nat.exists_eq_add_of_le' hlength
  have hmappings := Json.readMembers_last "mappings".toList
    (Json.readValue_quote depth map.written ['\x7d'])
  have hempty : ∀ rest, Json.readValue (depth + 2) ('[' :: ']' :: ',' :: rest) =
      some (.array [], ',' :: rest) := fun _ => rfl
  have hnames := Json.readMembers_next "names".toList (hempty _) hmappings
  have hcontents := Json.readMembers_next "sourcesContent".toList
    (Json.readValue_row depth map.contents _) hnames
  have hsources := Json.readMembers_next "sources".toList
    (Json.readValue_row (depth + 1) map.source.toList _) hcontents
  have hthree : ∀ rest, Json.readValue (depth + 5) ('3' :: ',' :: rest) =
      some (.number 3 0, ',' :: rest) := fun _ => rfl
  have hversion := Json.readMembers_next "version".toList (hthree _) hsources
  have hread := Json.readValue_object hversion
  rw [Json.parse, hdepth, toJson_eq, hread]
  rfl

/-- What a reader finds in the written form of a map: the members of a source map of one document,
in whose mappings no step goes back on its line, and the mappings of the map, among which it finds
what the map finds. -/
structure ReadsBack (map : PositionMap) (id : String) (text : List Char) (mappings : List Char) :
    Prop where
  json : Json.parse map.toJson =
    some (.object [("version".toList, .number 3 0), ("sources".toList, .array [.string id.toList]),
      ("sourcesContent".toList, .array [.string text]), ("names".toList, .array []),
      ("mappings".toList, .string mappings)])
  entries : Entry.readMappings mappings = some (map.mappings.map Entry.ofMapping)
  fields : ∀ row ∈ Entry.segments mappings, ∀ segment ∈ row, ∃ fields,
    Vlq.decode segment = some fields ∧ fields.length = 4 ∧ 0 ≤ fields.headD 0
  ascending : Mapping.Ascending map.mappings
  search : ∀ position, (Entry.search (map.mappings.map Entry.ofMapping) position).bind (·.origin) =
    (map.lookup position).map fun origin => (0, origin)

theorem search_map_ofMapping (map : PositionMap) (position : Cursor) :
    (Entry.search (map.mappings.map Entry.ofMapping) position).bind (·.origin) =
      (map.lookup position).map fun origin => (0, origin) := by
  have hfilter : (map.mappings.map Entry.ofMapping).filter (·.output.le position) =
      (map.mappings.filter (·.output.le position)).map Entry.ofMapping := List.filter_map
  rw [Entry.search, PositionMap.lookup, hfilter, List.getLast?_map]
  cases (map.mappings.filter (·.output.le position)).getLast? with
  | none => rfl
  | some m =>
    by_cases hline : m.output.line = position.line
    · simp [hline, Entry.ofMapping, Option.filter]
    · simp [hline, Entry.ofMapping, Option.filter]

theorem readsBack_of_ascending {map : PositionMap} (h : Mapping.Ascending map.mappings) :
    map.ReadsBack map.source map.contents map.written where
  json := parse_toJson map
  entries := by
    have hfollow := follow_of_ascending h
    rw [Entry.readMappings, written, segments_renderMappings hfollow]
    exact readRows_rowsFrom hfollow
  fields := by
    have hfollow := follow_of_ascending h
    rw [written, segments_renderMappings hfollow]
    intro row hrow segment hsegment
    obtain ⟨p, m, hle, rfl⟩ := exists_of_mem_rowsFrom hfollow row hrow segment hsegment
    refine ⟨fieldsFrom p m, decode_segmentFrom p m, rfl, ?_⟩
    rw [Cursor.le_iff] at hle
    simp only [fieldsFrom, List.headD_cons]
    split <;> omega
  ascending := h
  search := search_map_ofMapping map

/-- The map of a result is read back from its written form as it was recorded. -/
theorem readsBack_of_ofEdits {id : String} {text : List Char} {edits : List Edit}
    {resolution : Resolution} {edited : Edited}
    (h : Edited.ofEdits id text edits (some resolution) = .ok edited) :
    ∃ pieces map mappings, Edit.cut text edits = .ok pieces ∧ edited.map = some map ∧
      map.mappings = Mapping.ofPieces resolution .origin .origin pieces ∧
      map.ReadsBack id text mappings := by
  cases hcut : Edit.cut text edits with
  | error fault => simp [Edited.ofEdits, hcut, bind, Except.bind] at h
  | ok pieces =>
    simp only [Edited.ofEdits, hcut, bind, Except.bind, pure, Except.pure, Except.ok.injEq] at h
    subst h
    exact ⟨pieces, _, _, rfl, rfl, rfl,
      readsBack_of_ascending (Mapping.ascending_ofPieces resolution .origin .origin pieces)⟩

def quotedText : List Char := "\"\x01😀\n\nb".toList

def quotedEdited : Edited :=
  ⟨"\"x\ny😀\n\nb".toList, some ⟨"q\"\\.ts", quotedText,
    [⟨⟨0, 0⟩, ⟨0, 0⟩⟩, ⟨⟨0, 1⟩, ⟨0, 1⟩⟩, ⟨⟨1, 0⟩, ⟨0, 1⟩⟩, ⟨⟨1, 1⟩, ⟨0, 2⟩⟩, ⟨⟨1, 3⟩, ⟨0, 4⟩⟩,
      ⟨⟨2, 0⟩, ⟨1, 0⟩⟩, ⟨⟨3, 0⟩, ⟨2, 0⟩⟩]⟩⟩

theorem readsBack_quotedEdited :
    Edited.ofEdits "q\"\\.ts" quotedText [.replace ⟨1, 2⟩ "x\ny".toList] (some .char) =
        .ok quotedEdited ∧
      ∃ pieces map mappings,
        Edit.cut quotedText [.replace ⟨1, 2⟩ "x\ny".toList] = .ok pieces ∧
        quotedEdited.map = some map ∧
        map.mappings = Mapping.ofPieces .char .origin .origin pieces ∧
        map.ReadsBack "q\"\\.ts" quotedText mappings := by
  have hedited : Edited.ofEdits "q\"\\.ts" quotedText [.replace ⟨1, 2⟩ "x\ny".toList]
      (some .char) = .ok quotedEdited := by decide +kernel
  exact ⟨hedited, readsBack_of_ofEdits hedited⟩

end PositionMap

end Outdent
