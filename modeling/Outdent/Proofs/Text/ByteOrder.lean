import Mathlib.Data.List.Basic
import Mathlib.Order.Basic
import Mathlib.Data.String.Basic
import Outdent.Glob.Basic
/-! # The order of texts and of their bytes

Texts are compared character by character. Their encodings are compared byte by byte with the same
outcome: UTF-8 keeps the order of characters, and no encoding of a character starts another. -/
namespace Outdent.Text

open Outdent.Glob (bytes)

theorem toNat_lt_of_char_lt {c d : Char} (h : c < d) : c.val.toNat < d.val.toNat := h

theorem val_toNat_lt (c : Char) : c.val.toNat < 0x110000 := by
  have h := c.valid
  simp only [UInt32.isValidChar, Nat.isValidChar] at h
  omega

theorem utf8EncodeChar_append_lt {c d : Char} (h : c < d) (xs ys : List UInt8) :
    String.utf8EncodeChar c ++ xs < String.utf8EncodeChar d ++ ys := by
  have hlt := toNat_lt_of_char_lt h
  have hd := val_toNat_lt d
  simp only [String.utf8EncodeChar]
  generalize c.val.toNat = m at *
  generalize d.val.toNat = n at *
  -- which byte tells them apart depends on how many bytes each takes
  split_ifs <;>
    simp only [List.cons_append, List.nil_append, List.cons_lt_cons_iff, UInt8.lt_iff_toNat_lt,
      ← UInt8.toNat_inj, UInt8.toNat_ofNat'] <;>
    simp (disch := omega) only [Nat.mod_eq_of_lt] <;>
    omega

theorem bytes_lt_bytes_of_lt {s t : List Char} (h : s < t) : bytes s < bytes t := by
  induction s generalizing t with
  | nil =>
    cases t with
    | nil => exact absurd h (List.lt_irrefl _)
    | cons d ds =>
      simp only [bytes, List.flatMap_nil, List.flatMap_cons]
      cases hd : String.utf8EncodeChar d with
      | nil => exact absurd hd (String.utf8EncodeChar_ne_nil)
      | cons b bs => exact List.nil_lt_cons _ _
  | cons c cs ih =>
    cases t with
    | nil => exact absurd h (List.not_lt_nil _)
    | cons d ds =>
      simp only [bytes, List.flatMap_cons]
      rcases List.cons_lt_cons_iff.mp h with hcd | ⟨rfl, hcs⟩
      · exact utf8EncodeChar_append_lt hcd _ _
      · exact List.append_left_lt (ih hcs)

theorem bytes_lt_bytes_iff {s t : String} : bytes s.toList < bytes t.toList ↔ s < t := by
  constructor
  · intro h
    rcases lt_trichotomy s t with hst | rfl | hts
    · exact hst
    · exact absurd h (List.lt_irrefl _)
    · exact absurd h (List.lt_asymm (bytes_lt_bytes_of_lt (String.lt_iff.mp hts)))
  · exact fun h => bytes_lt_bytes_of_lt (String.lt_iff.mp h)

/-- Texts stand in the order of their bytes. -/
theorem bytes_le_bytes_iff {s t : String} : bytes s.toList ≤ bytes t.toList ↔ s ≤ t := by
  rw [← List.not_lt, bytes_lt_bytes_iff, not_lt]

end Outdent.Text
