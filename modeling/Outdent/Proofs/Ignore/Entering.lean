import Outdent.Ignore.Walk
import Outdent.Proofs.Files.Persistence
/-! # Which rules a walk reads

A walk comes to a directory from the root by way of the directories between, and to a file by way of
its directory. So it reads the rules that stand above the root and in the directories it enters, and
no others. -/
namespace Outdent.Ignore

open Outdent.Files (IsBelow Location Tree)

/-- Whether a walk from a root comes to a directory, which is the root or below it. -/
def isEntered (t : Tree) (root d : Location) : Bool :=
  root.isPrefixOf d &&
    (List.range (d.length + 1)).all fun n => n ≤ root.length || !isSkipped t (d.take n) true

theorem mem_ancestors {d l : Location} : d ∈ Tree.ancestors l ↔ IsBelow d l := by
  constructor
  · intro h
    obtain ⟨n, hn, rfl⟩ := List.mem_map.mp h
    have hlt := List.mem_range.mp hn
    refine ⟨List.take_prefix n l, fun heq => ?_⟩
    have hlength := congrArg List.length heq
    rw [List.length_take] at hlength
    omega
  · rintro ⟨hstart, hne⟩
    have htake : l.take d.length = d := (List.prefix_iff_eq_take.mp hstart).symm
    refine List.mem_map.mpr ⟨d.length, List.mem_range.mpr ?_, htake⟩
    exact lt_of_le_of_ne hstart.length_le fun hlength => hne (hstart.eq_of_length hlength)

section entering

variable {t : Tree} {root d : Location} {name : String}

theorem isEntered_iff : isEntered t root d = true ↔
    root <+: d ∧ ∀ n ≤ d.length, root.length < n → isSkipped t (d.take n) true = false := by
  simp only [isEntered, Bool.and_eq_true, List.isPrefixOf_iff_prefix, List.all_eq_true,
    List.mem_range, Bool.or_eq_true, decide_eq_true_eq, Bool.not_eq_true', Nat.lt_succ_iff]
  refine and_congr_right fun _ => forall₂_congr fun _ _ => ?_
  rw [← Nat.not_lt, Classical.or_iff_not_imp_left, not_not]

theorem isEntered_self : isEntered t root root = true :=
  isEntered_iff.mpr ⟨List.prefix_rfl, fun _ hn hlt => absurd hn (Nat.not_le.mpr hlt)⟩

theorem isEntered_between {e : Location} (h : isEntered t root d = true) (hroot : root <+: e)
    (he : e <+: d) : isEntered t root e = true := by
  obtain ⟨-, hall⟩ := isEntered_iff.mp h
  refine isEntered_iff.mpr ⟨hroot, fun n hn hlt => ?_⟩
  have htake : e.take n = d.take n := by
    rw [List.prefix_iff_eq_take.mp he, List.take_take, Nat.min_eq_left hn]
  rw [htake]
  exact hall n (Nat.le_trans hn he.length_le) hlt

theorem isEntered_concat (h : root <+: d) : isEntered t root (d ++ [name]) =
    (isEntered t root d && !isSkipped t (d ++ [name]) true) := by
  rw [Bool.eq_iff_iff, Bool.and_eq_true, Bool.not_eq_true', isEntered_iff]
  constructor
  · rintro ⟨hstart, hall⟩
    constructor
    · refine isEntered_between (isEntered_iff.mpr ⟨hstart, hall⟩) h (List.prefix_append _ _)
    · have hlast := hall (d ++ [name]).length (Nat.le_refl _)
        (by rw [List.length_append]; exact Nat.lt_succ_of_le h.length_le)
      rwa [List.take_length] at hlast
  · rintro ⟨hentered, hlast⟩
    obtain ⟨-, hall⟩ := isEntered_iff.mp hentered
    refine ⟨h.trans (List.prefix_append _ _), fun n hn hlt => ?_⟩
    rw [List.length_append, List.length_singleton] at hn
    rcases Nat.lt_or_ge d.length n with hlong | hshort
    · rwa [List.take_of_length_le (by rw [List.length_append]; exact hlong)]
    · rw [List.take_append_of_le_length hshort]
      exact hall n hshort hlt

theorem isReached_iff {l : Location} : isReached t root l = true ↔ root.length < l.length ∧
    root <+: l ∧ isSkipped t l false = false ∧
      ∀ n < l.length, root.length < n → isSkipped t (l.take n) true = false := by
  simp only [isReached, Bool.and_eq_true, List.isPrefixOf_iff_prefix, List.all_eq_true,
    List.mem_range, Bool.or_eq_true, decide_eq_true_eq, Bool.not_eq_true', and_assoc]
  refine and_congr_right fun _ => and_congr_right fun _ => and_congr_right fun _ =>
    forall₂_congr fun _ _ => ?_
  rw [← Nat.not_lt, Classical.or_iff_not_imp_left, not_not]

theorem isReached_concat : isReached t root (d ++ [name]) =
    (isEntered t root d && !isSkipped t (d ++ [name]) false) := by
  rw [Bool.eq_iff_iff, Bool.and_eq_true, Bool.not_eq_true', isReached_iff, isEntered_iff,
    List.length_append, List.length_singleton]
  constructor
  · rintro ⟨hlength, hstart, hfile, hall⟩
    have hroot : root <+: d := by
      rcases List.prefix_concat_iff.mp hstart with heq | hroot
      · rw [heq, List.length_append, List.length_singleton] at hlength
        exact absurd hlength (Nat.lt_irrefl _)
      · exact hroot
    refine ⟨⟨hroot, fun n hn hlt => ?_⟩, hfile⟩
    have htake : (d ++ [name]).take n = d.take n := List.take_append_of_le_length hn
    rw [← htake]
    exact hall n (Nat.lt_succ_of_le hn) hlt
  · rintro ⟨⟨hroot, hall⟩, hfile⟩
    refine ⟨Nat.lt_succ_of_le hroot.length_le, hroot.trans (List.prefix_append _ _), hfile, ?_⟩
    intro n hn hlt
    rw [List.take_append_of_le_length (Nat.le_of_lt_succ hn)]
    exact hall n (Nat.le_of_lt_succ hn) hlt

theorem isBelow_of_isReached {l : Location} (h : isReached t root l = true) : IsBelow root l := by
  obtain ⟨hlength, hstart, -⟩ := isReached_iff.mp h
  exact ⟨hstart, fun heq => absurd hlength (heq ▸ Nat.lt_irrefl _)⟩

end entering

section rules

variable {t u : Tree} {root : Location}

/-- Two trees have the same rules where a walk of the first one from a root reads them. -/
def SameRules (t u : Tree) (root : Location) : Prop :=
  ∀ d, IsBelow d root ∨ isEntered t root d = true →
    ∀ file ∈ ruleFiles, t.SameFileAt u (d ++ file)

theorem rulesAt_eq {d file : Location} (h : t.SameFileAt u (d ++ file)) :
    rulesAt u d file = rulesAt t d file :=
  h.match_eq rulesOf []

theorem findSome?_congr {α β : Type} {f g : α → Option β} {xs : List α} (h : ∀ x ∈ xs, f x = g x) :
    xs.findSome? f = xs.findSome? g := by
  induction xs with
  | nil => rfl
  | cons x xs ih =>
    simp only [List.findSome?_cons, h x List.mem_cons_self,
      ih fun y hy => h y (List.mem_cons_of_mem _ hy)]

theorem isSkipped_congr {l : Location}
    (h : ∀ d, IsBelow d l → ∀ file ∈ ruleFiles, t.SameFileAt u (d ++ file)) (isDirectory : Bool) :
    isSkipped u l isDirectory = isSkipped t l isDirectory := by
  have hverdict : verdict u l isDirectory = verdict t l isDirectory := by
    refine findSome?_congr fun file hfile => findSome?_congr fun d hd => ?_
    rw [rulesAt_eq (h d (mem_ancestors.mp (List.mem_reverse.mp hd)) file hfile)]
  rw [isSkipped, hverdict, isSkipped]

namespace SameRules

variable (h : SameRules t u root)

include h

theorem isSkipped_eq {d : Location} (hd : isEntered t root d = true) (name : String)
    (isDirectory : Bool) :
    isSkipped u (d ++ [name]) isDirectory = isSkipped t (d ++ [name]) isDirectory := by
  refine isSkipped_congr (fun e he => h e ?_) isDirectory
  have hstart := (Files.isBelow_append_singleton_iff _ _ _).mp he
  have hroot := (isEntered_iff.mp hd).1
  rcases List.prefix_or_prefix_of_prefix hstart hroot with habove | hbelow
  · by_cases heq : e = root
    · exact .inr (heq ▸ isEntered_self)
    · exact .inl ⟨habove, heq⟩
  · exact .inr (isEntered_between hd hbelow hstart)

theorem isEntered_eq (d : Location) : isEntered u root d = isEntered t root d := by
  by_cases hd : root <+: d
  · obtain ⟨rest, rfl⟩ := hd
    induction rest using List.reverseRecOn with
    | nil => rw [List.append_nil, isEntered_self, isEntered_self]
    | append_singleton rest name ih =>
      rw [← List.append_assoc, isEntered_concat (List.prefix_append _ _),
        isEntered_concat (List.prefix_append _ _), ih]
      cases hentered : isEntered t root (root ++ rest) with
      | false => rfl
      | true => rw [h.isSkipped_eq hentered]
  · have hnot : ∀ v : Tree, isEntered v root d = false := by
      intro v
      rw [← Bool.not_eq_true]
      exact fun hentered => hd (isEntered_iff.mp hentered).1
    rw [hnot t, hnot u]

theorem isReached_eq (l : Location) : isReached u root l = isReached t root l := by
  by_cases hl : IsBelow root l
  · obtain ⟨⟨rest, rfl⟩, hne⟩ := hl
    induction rest using List.reverseRecOn with
    | nil => exact absurd (List.append_nil root).symm hne
    | append_singleton rest name _ =>
      rw [← List.append_assoc, isReached_concat, isReached_concat, h.isEntered_eq]
      cases hentered : isEntered t root (root ++ rest) with
      | false => rfl
      | true => rw [h.isSkipped_eq hentered]
  · have hnot : ∀ v : Tree, isReached v root l = false := by
      intro v
      rw [← Bool.not_eq_true]
      exact fun hreached => hl (isBelow_of_isReached hreached)
    rw [hnot t, hnot u]

theorem badRuleAbove?_eq : badRuleAbove? u root = badRuleAbove? t root := by
  refine findSome?_congr fun d hd => findSome?_congr fun file hfile => ?_
  exact (h d (.inl (mem_ancestors.mp hd)) file hfile).match_eq _ _

end SameRules

end rules

end Outdent.Ignore
