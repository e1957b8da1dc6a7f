import Mathlib.Tactic.Common
import Outdent.Json.Text
/-! # Reading JSON

A reader of JSON texts, which knows nothing of how they were written: blanks between the tokens,
every escape of a string with pairs of surrogates, numbers with a fraction and an exponent, rows
and members of any depth. What a text is escaped to is read back as that text. -/
namespace Outdent.Json

/-- A value. A number is its mantissa times a power of ten; members stay in their order. -/
inductive Value where
  | null
  | boolean (b : Bool)
  | number (mantissa exponent : Int)
  | string (text : List Char)
  | array (items : List Value)
  | object (members : List (List Char × Value))

def skip (cs : List Char) : List Char :=
  cs.dropWhile fun c => c = ' ' || c = '\t' || c = '\n' || c = '\r'

def hexValue? (c : Char) : Option Nat :=
  if c.isDigit then some (c.toNat - 48)
  else if 'a' ≤ c ∧ c ≤ 'f' then some (c.toNat - 87)
  else if 'A' ≤ c ∧ c ≤ 'F' then some (c.toNat - 55)
  else none

def unit? (a b c d : Char) : Option Nat := do
  return (((← hexValue? a) * 16 + (← hexValue? b)) * 16 + (← hexValue? c)) * 16 + (← hexValue? d)

def short? : Char → Option Char
  | '"' => some '"'
  | '\\' => some '\\'
  | '/' => some '/'
  | 'b' => some '\x08'
  | 'f' => some '\x0c'
  | 'n' => some '\n'
  | 'r' => some '\r'
  | 't' => some '\t'
  | _ => none

def isHigh (unit : Nat) : Bool := 0xD800 ≤ unit && unit < 0xDC00

def isLow (unit : Nat) : Bool := 0xDC00 ≤ unit && unit < 0xE000

def push (c : Char) : List Char × List Char → List Char × List Char
  | (text, rest) => (c :: text, rest)

/-- Reads a string behind its opening quote, up to the closing one. `high` is the first surrogate
of a pair whose second one has to follow. -/
def readText (high : Option Nat) : List Char → Option (List Char × List Char)
  | [] => none
  | '"' :: cs => if high = none then some ([], cs) else none
  | '\\' :: 'u' :: a :: b :: c :: d :: cs => do
    let unit ← unit? a b c d
    match high with
    | some first =>
      if isLow unit then
        let code := 0x10000 + (first - 0xD800) * 0x400 + (unit - 0xDC00)
        (readText none cs).map (push (Char.ofNat code))
      else none
    | none =>
      if isHigh unit then readText (some unit) cs
      else if isLow unit then none
      else (readText none cs).map (push (Char.ofNat unit))
  | '\\' :: e :: cs => do
    let c ← if high = none then short? e else none
    (readText none cs).map (push c)
  | c :: cs =>
    if high = none ∧ c ≠ '\\' ∧ 32 ≤ c.toNat then (readText none cs).map (push c) else none

def natOf (digits : List Char) : Nat := digits.foldl (fun n d => 10 * n + (d.toNat - 48)) 0

def readDigits (cs : List Char) : Option (List Char × List Char) :=
  let digits := cs.takeWhile Char.isDigit
  if digits = [] then none else some (digits, cs.dropWhile Char.isDigit)

def readFraction : List Char → Option (List Char × List Char)
  | '.' :: cs => readDigits cs
  | cs => some ([], cs)

def readExponent : List Char → Option (Int × List Char)
  | [] => some (0, [])
  | c :: cs =>
    if c = 'e' ∨ c = 'E' then do
      let (negative, cs) := match cs with
        | '-' :: cs => (true, cs)
        | '+' :: cs => (false, cs)
        | cs => (false, cs)
      let (digits, cs) ← readDigits cs
      return (if negative then -(natOf digits : Int) else natOf digits, cs)
    else some (0, c :: cs)

/-- A number without a sign: no zero stands in front of another digit. -/
def readMagnitude (cs : List Char) : Option (Nat × Int × List Char) := do
  let (whole, cs) ← readDigits cs
  if whole.head? = some '0' ∧ whole ≠ ['0'] then none
  else
    let (fraction, cs) ← readFraction cs
    let (exponent, cs) ← readExponent cs
    return (natOf (whole ++ fraction), exponent - fraction.length, cs)

def readNumber : List Char → Option (Value × List Char)
  | '-' :: cs => do
    let (n, exponent, cs) ← readMagnitude cs
    return (.number (-n) exponent, cs)
  | cs => do
    let (n, exponent, cs) ← readMagnitude cs
    return (.number n exponent, cs)

mutual

/-- Reads one value. `depth` bounds how deep the calls stand inside one another. -/
def readValue : (depth : Nat) → List Char → Option (Value × List Char)
  | 0, _ => none
  | depth + 1, cs =>
    match skip cs with
    | '"' :: cs => do
      let (text, cs) ← readText none cs
      return (.string text, cs)
    | '[' :: cs =>
      match skip cs with
      | ']' :: cs => some (.array [], cs)
      | cs => do
        let (items, cs) ← readItems depth cs
        return (.array items, cs)
    | '\x7b' :: cs =>
      match skip cs with
      | '\x7d' :: cs => some (.object [], cs)
      | cs => do
        let (members, cs) ← readMembers depth cs
        return (.object members, cs)
    | 'n' :: 'u' :: 'l' :: 'l' :: cs => some (.null, cs)
    | 't' :: 'r' :: 'u' :: 'e' :: cs => some (.boolean true, cs)
    | 'f' :: 'a' :: 'l' :: 's' :: 'e' :: cs => some (.boolean false, cs)
    | cs => readNumber cs

def readItems : (depth : Nat) → List Char → Option (List Value × List Char)
  | 0, _ => none
  | depth + 1, cs => do
    let (item, cs) ← readValue depth cs
    match skip cs with
    | ',' :: cs =>
      let (items, cs) ← readItems depth cs
      return (item :: items, cs)
    | ']' :: cs => return ([item], cs)
    | _ => none

def readMembers : (depth : Nat) → List Char → Option (List (List Char × Value) × List Char)
  | 0, _ => none
  | depth + 1, cs => do
    let '"' :: cs := skip cs | none
    let (name, cs) ← readText none cs
    let ':' :: cs := skip cs | none
    let (value, cs) ← readValue depth cs
    match skip cs with
    | ',' :: cs =>
      let (members, cs) ← readMembers depth cs
      return ((name, value) :: members, cs)
    | '\x7d' :: cs => return ([(name, value)], cs)
    | _ => none

end

def parse (text : List Char) : Option Value := do
  let (value, rest) ← readValue text.length text
  if skip rest = [] then some value else none

example : parse " \x7b\"a\\u0041\": [-1.5e3, \"\\ud83d\\ude00\"] \x7d".toList =
    some (.object [("aA".toList, .array [.number (-15) 2, .string "😀".toList])]) := by cbv

/-! ## Texts that were escaped -/

theorem readText_control {n : Nat} (h : n < 32) (cs : List Char) :
    readText none ('\\' :: 'u' :: '0' :: '0' :: hexDigit (n / 16) :: hexDigit (n % 16) :: cs) =
      (readText none cs).map (push (Char.ofNat n)) := by
  have hunit : ∀ k < 32, unit? '0' '0' (hexDigit (k / 16)) (hexDigit (k % 16)) = some k := by
    decide
  have hhigh : isHigh n = false := by
    simp only [isHigh, Bool.and_eq_false_iff, decide_eq_false_iff_not]
    omega
  have hlow : isLow n = false := by
    simp only [isLow, Bool.and_eq_false_iff, decide_eq_false_iff_not]
    omega
  simp [readText, hunit n h, hhigh, hlow]

theorem readText_plain {c : Char} (hquote : c ≠ '"') (hslash : c ≠ '\\') (h : 32 ≤ c.toNat)
    (cs : List Char) : readText none (c :: cs) = (readText none cs).map (push c) := by
  rw [readText]
  · exact if_pos ⟨rfl, hslash, h⟩
  · exact hquote
  · exact fun _ _ _ _ _ hc _ => hslash hc
  · exact fun _ _ hc _ => hslash hc

theorem readText_escape (c : Char) (cs : List Char) :
    readText none (escape c ++ cs) = (readText none cs).map (push c) := by
  have hofNat : Char.ofNat c.toNat = c := Char.ofNat_toNat c
  unfold escape
  split
  · rfl
  · rfl
  · rfl
  · rfl
  · rfl
  · next hquote hslash _ _ _ =>
    split
    · next hc =>
      obtain rfl : c = '\x08' := by rw [← hofNat, hc]
      rfl
    · split
      · next hc =>
        obtain rfl : c = '\x0c' := by rw [← hofNat, hc]
        rfl
      · split
        · next hc =>
          have hread := readText_control hc cs
          rwa [hofNat] at hread
        · next hc => exact readText_plain hquote hslash (Nat.not_lt.mp hc) cs

theorem readText_flatMap_escape (text rest : List Char) :
    readText none (text.flatMap escape ++ '"' :: rest) = some (text, rest) := by
  induction text with
  | nil => rfl
  | cons c text ih =>
    rw [List.flatMap_cons, List.append_assoc, readText_escape, ih]
    rfl

theorem flatMap_escape_of_plain {text : List Char} (h : ∀ c ∈ text, escape c = [c]) :
    text.flatMap escape = text := by
  induction text with
  | nil => rfl
  | cons c text ih =>
    rw [List.flatMap_cons, h c List.mem_cons_self, ih fun d hd => h d (List.mem_cons_of_mem _ hd)]
    rfl

variable {depth : Nat} {name cs rest : List Char} {value : Value}

theorem readValue_quote (depth : Nat) (text rest : List Char) :
    readValue (depth + 1) (quote text ++ rest) = some (.string text, rest) := by
  have hread := readText_flatMap_escape text rest
  simp only [quote, List.cons_append, List.append_assoc, List.nil_append] at hread ⊢
  rw [readValue]
  simp [skip, hread]

theorem readValue_row (depth : Nat) (text rest : List Char) :
    readValue (depth + 3) ('[' :: (quote text ++ ']' :: rest)) =
      some (.array [.string text], rest) := by
  have hitems : readItems (depth + 2) (quote text ++ ']' :: rest) =
      some ([.string text], rest) := by
    rw [readItems, readValue_quote]
    rfl
  simp only [quote, List.cons_append, List.append_assoc, List.nil_append] at hitems ⊢
  rw [readValue]
  simp [skip, hitems]

theorem readValue_object {members : List (List Char × Value)}
    (h : readMembers depth (quote name ++ cs) = some (members, rest)) :
    readValue (depth + 1) ('\x7b' :: (quote name ++ cs)) = some (.object members, rest) := by
  simp only [quote, List.cons_append, List.append_assoc, List.nil_append] at h ⊢
  rw [readValue]
  simp [skip, h]

theorem readMembers_next (name : List Char) {members : List (List Char × Value)} {tail : List Char}
    (hvalue : readValue depth cs = some (value, ',' :: rest))
    (hmembers : readMembers depth rest = some (members, tail)) :
    readMembers (depth + 1) (quote name ++ ':' :: cs) = some ((name, value) :: members, tail) := by
  have hread := readText_flatMap_escape name (':' :: cs)
  simp only [quote, List.cons_append, List.append_assoc, List.nil_append] at hread ⊢
  rw [readMembers]
  simp [skip, hread, hvalue, hmembers]

theorem readMembers_last (name : List Char)
    (hvalue : readValue depth cs = some (value, '\x7d' :: rest)) :
    readMembers (depth + 1) (quote name ++ ':' :: cs) = some ([(name, value)], rest) := by
  have hread := readText_flatMap_escape name (':' :: cs)
  simp only [quote, List.cons_append, List.append_assoc, List.nil_append] at hread ⊢
  rw [readMembers]
  simp [skip, hread, hvalue]

end Outdent.Json
