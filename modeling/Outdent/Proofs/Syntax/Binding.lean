import Mathlib.Data.List.Basic
import Outdent.Syntax.Grammar.Exchange
/-! # What is read of a binding

A reader that gives a value has read each of its steps. A binding in the braces of an import takes
what its first name says, which is a word or a string. -/
namespace Outdent.Syntax

namespace Reader

variable {α β : Type} {s s' : State}

theorem bind_eq_ok {r : Reader α} {f : α → Reader β} {b : β} : (r >>= f) s = (.ok b, s') ↔
    ∃ a s₁, r s = (.ok a, s₁) ∧ f a s₁ = (.ok b, s') := by
  change Reader.bind r f s = _ ↔ _
  unfold Reader.bind
  constructor
  · intro h
    split at h
    · next a s₁ hr => exact ⟨a, s₁, hr, h⟩
    · next e s₁ hr => simp at h
  · rintro ⟨a, s₁, hr, hf⟩
    rw [hr]
    exact hf

theorem pure_eq_ok {a b : α} : (pure a : Reader α) s = (.ok b, s') ↔ a = b ∧ s = s' := by
  change (Except.ok a, s) = _ ↔ _
  rw [Prod.mk.injEq, Except.ok.injEq]

theorem failAt_ne_ok {position : Nat} {b : β} : failAt position s ≠ (.ok b, s') := by
  simp [failAt]

theorem exists_of_reported {r : Reader α} {a : α} {mark : Option Nat} {reports : Bool}
    (h : (match mark with
      | some position => if reports then do report position; r else r
      | none => r) s = (.ok a, s')) : ∃ s₁, r s₁ = (.ok a, s') := by
  split at h
  · split at h
    · obtain ⟨-, s₁, -, h⟩ := bind_eq_ok.mp h
      exact ⟨s₁, h⟩
    · exact ⟨s, h⟩
  · exact ⟨s, h⟩

end Reader

namespace Grammar

open Reader

/-- A binding in braces takes what its first name says. It goes by the second name, or by the first
where there is none, and a string cannot be the only one. -/
theorem importItem_eq_ok {typesOnly : Bool} {s s' : State} {b : ImportBinding}
    (h : importItem typesOnly s = (.ok b, s')) : ∃ item s₁,
      exchangeItem boundName s = (.ok item, s₁) ∧
      b = ⟨.named item.outer.text, (item.inner.getD item.outer).text⟩ ∧
      (item.outer.isString = true → item.inner.isSome = true) := by
  unfold importItem at h
  obtain ⟨item, s₁, hitem, h⟩ := bind_eq_ok.mp h
  refine ⟨item, s₁, hitem, ?_⟩
  obtain ⟨s₂, h⟩ := exists_of_reported h
  cases hinner : item.inner with
  | some inner =>
    simp only [hinner] at h
    obtain ⟨rfl, -⟩ := pure_eq_ok.mp h
    exact ⟨rfl, fun _ => rfl⟩
  | none =>
    simp only [hinner] at h
    split at h
    · obtain ⟨_, _, hfail, -⟩ := bind_eq_ok.mp h
      exact absurd hfail failAt_ne_ok
    · next hstring =>
      split at h
      · obtain ⟨_, _, hfail, -⟩ := bind_eq_ok.mp h
        exact absurd hfail failAt_ne_ok
      · obtain ⟨rfl, -⟩ := pure_eq_ok.mp h
        exact ⟨rfl, fun hs => absurd hs hstring⟩

end Grammar

end Outdent.Syntax
