import Mathlib.Data.List.Forall2
/-! # Rows that stand against each other

Two rows of the same length, in which each entry stands in a relation to the one at its place: what
is in one row has a counterpart in the other, a row that is put together falls apart with its
counterpart, and relations compose along a row between them. -/
namespace Outdent

variable {α β γ : Type} {R : α → β → Prop} {as : List α}

theorem exists_left_of_forall₂ {bs : List β}
    (h : List.Forall₂ R as bs) {b : β} (hb : b ∈ bs) : ∃ a ∈ as, R a b := by
  induction h with
  | nil => exact absurd hb List.not_mem_nil
  | cons hab _ ih =>
    rcases List.mem_cons.mp hb with rfl | hb
    · exact ⟨_, List.mem_cons_self, hab⟩
    · obtain ⟨a, ha, hr⟩ := ih hb
      exact ⟨a, List.mem_cons_of_mem _ ha, hr⟩

theorem exists_right_of_forall₂ {bs : List β}
    (h : List.Forall₂ R as bs) {a : α} (ha : a ∈ as) : ∃ b ∈ bs, R a b :=
  exists_left_of_forall₂ h.flip ha

theorem map_eq_map_of_forall₂ {bs : List β} {f : α → γ} {g : β → γ}
    (h : List.Forall₂ R as bs) (hfg : ∀ a ∈ as, ∀ b, R a b → f a = g b) :
    as.map f = bs.map g := by
  induction h with
  | nil => rfl
  | cons hab _ ih =>
    obtain ⟨hhead, htail⟩ := List.forall_mem_cons.mp hfg
    rw [List.map_cons, List.map_cons, hhead _ hab, ih htail]

theorem forall₂_comp {S : β → γ → Prop} {T : α → γ → Prop}
    (h : ∀ a b c, R a b → S b c → T a c) {bs : List β} {cs : List γ}
    (hR : List.Forall₂ R as bs) (hS : List.Forall₂ S bs cs) : List.Forall₂ T as cs := by
  induction hR generalizing cs with
  | nil =>
    cases hS
    exact .nil
  | cons hab _ ih =>
    cases hS with
    | cons hbc hrest => exact .cons (h _ _ _ hab hbc) (ih hrest)

theorem exists_append_of_forall₂ {bs cs : List β}
    (h : List.Forall₂ R as (bs ++ cs)) :
    ∃ front back, as = front ++ back ∧ List.Forall₂ R front bs ∧ List.Forall₂ R back cs :=
  ⟨_, _, (List.take_append_drop bs.length as).symm, List.forall₂_take_append _ _ _ h,
    List.forall₂_drop_append _ _ _ h⟩

end Outdent
