import Mathlib.Tactic.Common
import Outdent.Text.Bytes
/-! # Cutting a text at boundaries

A boundary is an offset at which a whole number of characters ends, so a text falls into parts
there. Slices between boundaries are such parts, and they can be put together again. -/
namespace Outdent.Text

theorem utf8Size_eq_succ (c : Char) (n : Nat) :
    ∃ k, c.utf8Size + n = k + 1 := by
  have := c.utf8Size_pos
  exact ⟨c.utf8Size + n - 1, by omega⟩

theorem eq_nil_of_byteLength {cs : List Char} (h : byteLength cs = 0) : cs = [] := by
  cases cs with
  | nil => rfl
  | cons c cs =>
    have := c.utf8Size_pos
    simp only [byteLength] at h
    omega

theorem splitAtByte_byteLength (xs ys : List Char) :
    splitAtByte (byteLength xs) (xs ++ ys) = (xs, ys) := by
  induction xs with
  | nil => cases ys <;> rfl
  | cons c xs ih =>
    obtain ⟨k, hk⟩ := utf8Size_eq_succ c (byteLength xs)
    have hr : k + 1 - c.utf8Size = byteLength xs := by omega
    simp only [byteLength, List.cons_append]
    rw [hk, splitAtByte, hr, ih]

theorem eq_of_append_eq {xs ys us zs : List Char} (h : xs ++ ys = us ++ zs)
    (hlen : byteLength xs = byteLength us) : xs = us := by
  have hcut := splitAtByte_byteLength xs ys
  rw [h, hlen, splitAtByte_byteLength] at hcut
  exact (Prod.mk.inj hcut).1.symm

theorem isBoundary_byteLength (xs ys : List Char) :
    isBoundary (byteLength xs) (xs ++ ys) = true := by
  induction xs with
  | nil => simp [byteLength, isBoundary]
  | cons c xs ih =>
    obtain ⟨k, hk⟩ := utf8Size_eq_succ c (byteLength xs)
    have hr : k + 1 - c.utf8Size = byteLength xs := by omega
    simp only [byteLength, List.cons_append]
    rw [hk, isBoundary, hr, ih]
    simp only [Bool.and_true, decide_eq_true_eq]
    omega

theorem isBoundary_iff {n : Nat} {cs : List Char} :
    isBoundary n cs = true ↔ ∃ xs ys, cs = xs ++ ys ∧ byteLength xs = n := by
  constructor
  · intro h
    exact ⟨_, _, (splitAtByte_append n cs).symm, byteLength_splitAtByte h⟩
  · rintro ⟨xs, ys, rfl, rfl⟩
    exact isBoundary_byteLength xs ys

theorem isBoundary_zero (cs : List Char) : isBoundary 0 cs = true := by
  cases cs <;> rfl

theorem isBoundary_end (cs : List Char) : isBoundary (byteLength cs) cs = true :=
  isBoundary_iff.mpr ⟨cs, [], by simp, rfl⟩

theorem slice_middle (xs ys zs : List Char) :
    slice (byteLength xs) (byteLength xs + byteLength ys) (xs ++ ys ++ zs) = ys := by
  simp only [slice, List.append_assoc, splitAtByte_byteLength, Nat.add_sub_cancel_left]

theorem slice_rest (xs ys : List Char) :
    slice (byteLength xs) (byteLength (xs ++ ys)) (xs ++ ys) = ys := by
  have hmiddle := slice_middle xs ys []
  rwa [List.append_nil, ← byteLength_append] at hmiddle

theorem exists_between {xs rest us zs : List Char} (h : xs ++ rest = us ++ zs)
    (hle : byteLength xs ≤ byteLength us) : ∃ ys, us = xs ++ ys ∧ rest = ys ++ zs := by
  rcases List.append_eq_append_iff.mp h with ⟨ys, h₁, h₂⟩ | ⟨bs, h₁, h₂⟩
  · exact ⟨ys, h₁, h₂⟩
  · have hbs : bs = [] := by
      apply eq_nil_of_byteLength
      have hlen := congrArg byteLength h₁
      simp only [byteLength_append] at hlen
      omega
    subst hbs
    exact ⟨[], by simpa using h₁.symm, by simpa using h₂.symm⟩

theorem exists_three_parts {a b : Nat} {cs : List Char} (ha : isBoundary a cs = true)
    (hb : isBoundary b cs = true) (hab : a ≤ b) :
    ∃ xs ys zs, cs = xs ++ ys ++ zs ∧ byteLength xs = a ∧ a + byteLength ys = b ∧
      slice a b cs = ys := by
  obtain ⟨xs, rest, hx, rfl⟩ := isBoundary_iff.mp ha
  obtain ⟨us, zs, hu, rfl⟩ := isBoundary_iff.mp hb
  obtain ⟨ys, rfl, rfl⟩ := exists_between (hx.symm.trans hu) hab
  have hcs : cs = xs ++ ys ++ zs := by rw [hx, List.append_assoc]
  refine ⟨xs, ys, zs, hcs, rfl, by simp, ?_⟩
  rw [hcs, byteLength_append, slice_middle]

theorem byteLength_slice {a b : Nat} {cs : List Char} (ha : isBoundary a cs = true)
    (hb : isBoundary b cs = true) (hab : a ≤ b) : byteLength (slice a b cs) = b - a := by
  obtain ⟨xs, ys, zs, -, -, hlen, hs⟩ := exists_three_parts ha hb hab
  rw [hs]
  omega

theorem slice_append {a b c : Nat} {cs : List Char} (ha : isBoundary a cs = true)
    (hb : isBoundary b cs = true) (hc : isBoundary c cs = true) (hab : a ≤ b) (hbc : b ≤ c) :
    slice a c cs = slice a b cs ++ slice b c cs := by
  obtain ⟨xs, ys, rest, hcs, hx, hy, hs⟩ := exists_three_parts ha hb hab
  obtain ⟨us, zs, ws, hcs', hu, hz, ht⟩ := exists_three_parts hb hc hbc
  have hus : us = xs ++ ys := by
    have hsplit : us ++ (zs ++ ws) = (xs ++ ys) ++ rest := by
      rw [← List.append_assoc, ← hcs', hcs]
    apply eq_of_append_eq hsplit
    rw [byteLength_append]
    omega
  subst hus
  have hcut := slice_middle xs (ys ++ zs) ws
  rw [byteLength_append, hx, ← Nat.add_assoc, hy, hz, ← List.append_assoc] at hcut
  rw [hs, ht, hcs', hcut]

theorem slice_self (a : Nat) (cs : List Char) : slice a a cs = [] := by
  unfold slice
  rw [Nat.sub_self]
  cases (splitAtByte a cs).2 <;> rfl

@[simp] theorem slice_whole (cs : List Char) : slice 0 (byteLength cs) cs = cs := by
  simpa [byteLength] using slice_middle [] cs []

end Outdent.Text
