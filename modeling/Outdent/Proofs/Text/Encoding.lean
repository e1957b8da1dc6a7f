import Outdent.Glob.Basic
import Outdent.Proofs.Edit.Order
import Outdent.Proofs.Text.ByteOrder
import Outdent.Proofs.Text.Slice
/-! # Texts and their bytes

Byte offsets are counted in the UTF-8 encoding of a text. A span of a text runs forward, ends within
the encoding, and both of its ends lie between encoded characters. -/
namespace Outdent

open Glob (bytes)

namespace Text

theorem bytes_append (xs ys : List Char) : bytes (xs ++ ys) = bytes xs ++ bytes ys :=
  List.flatMap_append

@[simp] theorem length_bytes (cs : List Char) : (bytes cs).length = byteLength cs := by
  induction cs with
  | nil => rfl
  | cons c cs ih =>
    rw [bytes, List.flatMap_cons, List.length_append, String.length_utf8EncodeChar, byteLength]
    exact congrArg (c.utf8Size + ·) ih

theorem mem_utf8EncodeChar_iff {b : UInt8} (hb : b.toNat < 128) {c : Char} :
    b ∈ String.utf8EncodeChar c ↔ c.toNat = b.toNat := by
  have hc := val_toNat_lt c
  simp only [String.utf8EncodeChar, Char.toNat]
  generalize c.val.toNat = n at *
  split_ifs <;>
    simp only [List.mem_cons, List.not_mem_nil, or_false, ← UInt8.toNat_inj, UInt8.toNat_ofNat'] <;>
    simp (disch := omega) only [Nat.mod_eq_of_lt] <;>
    omega

theorem utf8EncodeChar_of_lt {c : Char} (h : c.toNat < 128) :
    String.utf8EncodeChar c = [UInt8.ofNat c.toNat] := by
  have hle : c.val.toNat ≤ 0x7f := Nat.lt_succ_iff.mp h
  simp only [String.utf8EncodeChar, if_pos hle, Char.toNat]

theorem bytes_cons (c : Char) (cs : List Char) :
    bytes (c :: cs) = String.utf8EncodeChar c ++ bytes cs :=
  List.flatMap_cons

@[simp] theorem bytes_eq_nil_iff {cs : List Char} : bytes cs = [] ↔ cs = [] := by
  constructor
  · intro h
    apply eq_nil_of_byteLength
    rw [← length_bytes, h, List.length_nil]
  · rintro rfl
    rfl

variable {cs s : List Char} {xs ys : List UInt8}

/-- A byte below 128 is a character of its own, and the encoding falls apart there. -/
theorem exists_of_bytes_eq_append_cons {c : Char} (hc : c.toNat < 128)
    (h : bytes cs = xs ++ UInt8.ofNat c.toNat :: ys) :
    ∃ before after, cs = before ++ c :: after ∧ bytes before = xs ∧ bytes after = ys := by
  have hbyte : (UInt8.ofNat c.toNat).toNat = c.toNat := by
    rw [UInt8.toNat_ofNat', Nat.mod_eq_of_lt (by omega)]
  induction cs generalizing xs with
  | nil => simp [bytes] at h
  | cons d ds ih =>
    rw [bytes_cons] at h
    rcases List.append_eq_append_iff.mp h with ⟨front, rfl, hds⟩ | ⟨back, hd, hback⟩
    · obtain ⟨before, after, rfl, rfl, rfl⟩ := ih hds
      exact ⟨d :: before, after, rfl, bytes_cons d before, rfl⟩
    · cases back with
      | nil =>
        obtain ⟨before, after, rfl, hbefore, rfl⟩ := @ih [] hback.symm
        obtain rfl := bytes_eq_nil_iff.mp hbefore
        rw [List.append_nil] at hd
        exact ⟨[d], after, rfl, by rw [bytes_cons, hd]; exact List.append_nil xs, rfl⟩
      | cons b back =>
        obtain ⟨rfl, rfl⟩ := List.cons.inj hback
        have hmem : UInt8.ofNat c.toNat ∈ String.utf8EncodeChar d := by simp [hd]
        rw [mem_utf8EncodeChar_iff (by omega), hbyte, Char.toNat_inj] at hmem
        subst hmem
        have hlength := congrArg List.length hd
        rw [utf8EncodeChar_of_lt hc] at hlength
        simp only [List.length_append, List.length_cons, List.length_nil] at hlength
        obtain rfl : xs = [] := List.length_eq_zero_iff.mp (by omega)
        obtain rfl : back = [] := List.length_eq_zero_iff.mp (by omega)
        exact ⟨[], ds, rfl, rfl, rfl⟩

theorem exists_of_bytes_eq_bytes_append (hs : ∀ c ∈ s, c.toNat < 128)
    (h : bytes cs = bytes s ++ ys) : ∃ after, cs = s ++ after ∧ bytes after = ys := by
  induction s generalizing cs with
  | nil => exact ⟨cs, rfl, h⟩
  | cons c s ih =>
    obtain ⟨hc, hrest⟩ := List.forall_mem_cons.mp hs
    rw [bytes_cons, utf8EncodeChar_of_lt hc, List.append_assoc] at h
    obtain ⟨before, after, rfl, hbefore, hafter⟩ :=
      @exists_of_bytes_eq_append_cons cs [] _ c hc h
    obtain rfl := bytes_eq_nil_iff.mp hbefore
    obtain ⟨after, rfl, hys⟩ := ih hrest hafter
    exact ⟨after, rfl, hys⟩

theorem exists_of_bytes_eq_append (hs : ∀ c ∈ s, c.toNat < 128) (hne : s ≠ [])
    (h : bytes cs = xs ++ bytes s ++ ys) :
    ∃ before after, cs = before ++ s ++ after ∧ bytes before = xs ∧ bytes after = ys := by
  obtain ⟨c, s, rfl⟩ := List.exists_cons_of_ne_nil hne
  obtain ⟨hc, hrest⟩ := List.forall_mem_cons.mp hs
  rw [bytes_cons, utf8EncodeChar_of_lt hc, List.append_assoc] at h
  obtain ⟨before, after, rfl, hbefore, hafter⟩ := exists_of_bytes_eq_append_cons hc h
  obtain ⟨after, rfl, hys⟩ := exists_of_bytes_eq_bytes_append hrest hafter
  exact ⟨before, after, by simp, hbefore, hys⟩

/-- An offset at which the encoding of a text falls into those of two texts. -/
def IsCharacterBoundary (text : List Char) (offset : Nat) : Prop :=
  ∃ before after, text = before ++ after ∧ (bytes before).length = offset

theorem isBoundary_iff_isCharacterBoundary {text : List Char} {offset : Nat} :
    isBoundary offset text = true ↔ IsCharacterBoundary text offset := by
  simp only [isBoundary_iff, IsCharacterBoundary, length_bytes]

end Text

structure Span.IsSpanOf (text : List Char) (r : Span) : Prop where
  forward : r.start ≤ r.stop
  inside : r.stop ≤ (bytes text).length
  starts : Text.IsCharacterBoundary text r.start
  stops : Text.IsCharacterBoundary text r.stop

theorem Span.isValidIn_iff_isSpanOf {text : List Char} {r : Span} :
    r.isValidIn text = true ↔ r.IsSpanOf text := by
  rw [isValidIn_iff, Text.isBoundary_iff_isCharacterBoundary,
    Text.isBoundary_iff_isCharacterBoundary, ← Text.length_bytes]
  constructor
  · rintro ⟨hforward, hinside, hstart, hstop⟩
    exact ⟨hforward, hinside, hstart, hstop⟩
  · rintro ⟨hforward, hinside, hstart, hstop⟩
    exact ⟨hforward, hinside, hstart, hstop⟩

end Outdent
