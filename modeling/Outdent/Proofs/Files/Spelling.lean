import Mathlib.Data.List.Basic
import Outdent.Project.Source
import Outdent.Proofs.Files.Resolution
/-! # Paths and their spelling

A path is read back from its spelling. The identifier of a source spells the way from the root to
the file, as long as no name on it holds a backslash. -/
namespace Outdent

open Outdent.Files (IsBelow Location Path Tree isVoid resolve namesBetween)

namespace Files

namespace Path

theorem filter_dropWhile_isVoid (names : List String) :
    (names.dropWhile isVoid).filter (! isVoid ·) = names.filter (! isVoid ·) := by
  induction names with
  | nil => rfl
  | cons name names ih =>
    by_cases hvoid : isVoid name = true
    · simp [hvoid, ih]
    · simp [hvoid]

theorem resolve_withoutFinalVoids (l : Location) (names : List String) :
    resolve l (withoutFinalVoids names) = resolve l names := by
  rw [← resolve_steps l (withoutFinalVoids names), ← resolve_steps l names, withoutFinalVoids,
    List.filter_reverse, filter_dropWhile_isVoid, List.filter_reverse, List.reverse_reverse]

theorem head?_dropWhile_isVoid {names : List String} {name : String}
    (h : (names.dropWhile isVoid).head? = some name) : isVoid name = false := by
  have hnot := List.head?_dropWhile_not isVoid names
  rw [h] at hnot
  simpa using hnot

theorem resolve_namesAfter {steps names rest : List String} (l : Location)
    (h : namesAfter steps names = some rest) (hsteps : ∀ s ∈ steps, isVoid s = false) :
    resolve (resolve l steps) rest = resolve l names := by
  fun_induction namesAfter steps names generalizing l with
  | case1 names =>
    obtain rfl := Option.some.inj h
    rw [← resolve_steps _ (names.dropWhile isVoid), filter_dropWhile_isVoid, resolve_steps]
    rfl
  | case2 => contradiction
  | case3 s ss name names hvoid ih =>
    rw [ih l h hsteps]
    simp [resolve, hvoid]
  | case4 ss name names hvoid ih =>
    have hrest := ih (resolve l [name]) h fun s hs => hsteps s (List.mem_cons_of_mem _ hs)
    rw [← List.singleton_append, resolve_append, hrest, ← resolve_append, List.singleton_append]
  | case5 => contradiction

theorem namesAfter_suffix {steps names rest : List String}
    (h : namesAfter steps names = some rest) :
    rest <:+ names ∧ ∀ name, rest.head? = some name → isVoid name = false := by
  fun_induction namesAfter steps names with
  | case1 names =>
    obtain rfl := Option.some.inj h
    exact ⟨List.dropWhile_suffix _, fun name hname => head?_dropWhile_isVoid hname⟩
  | case2 => contradiction
  | case3 s ss name names hvoid ih =>
    exact ⟨(ih h).1.trans (List.suffix_cons _ _), (ih h).2⟩
  | case4 ss name names hvoid ih =>
    exact ⟨(ih h).1.trans (List.suffix_cons _ _), (ih h).2⟩
  | case5 => contradiction

theorem withoutFinalVoids_prefix (names : List String) : withoutFinalVoids names <+: names := by
  have hsuffix : names.reverse.dropWhile isVoid <:+ names.reverse := List.dropWhile_suffix _
  have hfront := List.reverse_prefix.mpr hsuffix
  rwa [List.reverse_reverse] at hfront

theorem resolved_of_below? {p directory q : Path} (h : p.below? directory = some q) (l : Location)
    (hdirectory : directory.isAbsolute = p.isAbsolute) :
    resolve (directory.resolved l) q.names = p.resolved l := by
  simp only [below?, Option.map_eq_some_iff] at h
  obtain ⟨rest, hrest, rfl⟩ := h
  have hsteps : ∀ s ∈ directory.steps, isVoid s = false := by
    intro s hs
    simpa using (List.mem_filter.mp hs).2
  simp only [resolve_withoutFinalVoids, resolved, hdirectory]
  rw [← resolve_steps _ directory.names]
  exact resolve_namesAfter _ hrest hsteps

theorem relative_of_below? {p directory q : Path} (h : p.below? directory = some q) :
    q.isAbsolute = false ∧ q.names.head? ≠ some "" := by
  obtain ⟨rest, hrest, rfl⟩ := Option.map_eq_some_iff.mp h
  refine ⟨rfl, fun hempty => ?_⟩
  obtain ⟨tail, htail⟩ := withoutFinalVoids_prefix rest
  have hhead : rest.head? = some "" := by rw [← htail, List.head?_append, hempty, Option.some_or]
  exact absurd ((namesAfter_suffix hrest).2 "" hhead) (by decide)

end Path

structure IsName (name : String) : Prop where
  proper : isVoid name = false
  not_up : name ≠ ".."
  noSlash : '/' ∉ name.toList

instance (name : String) : Decidable (IsName name) :=
  decidable_of_iff (isVoid name = false ∧ name ≠ ".." ∧ '/' ∉ name.toList)
    ⟨fun h => ⟨h.1, h.2.1, h.2.2⟩, fun h => ⟨h.proper, h.not_up, h.noSlash⟩⟩

theorem resolve_of_isName {names : List String} (h : ∀ n ∈ names, IsName n) (l : Location) :
    resolve l names = l ++ names := by
  induction names generalizing l with
  | nil => simp [resolve]
  | cons name names ih =>
    have hname := h name List.mem_cons_self
    simp [resolve, hname.proper, hname.not_up, ih fun n hn => h n (List.mem_cons_of_mem _ hn)]

theorem isName_resolve {l : Location} {names : List String} (hl : ∀ n ∈ l, IsName n)
    (hnames : ∀ n ∈ names, '/' ∉ n.toList) : ∀ n ∈ resolve l names, IsName n := by
  induction names generalizing l with
  | nil => exact hl
  | cons name names ih =>
    have hrest : ∀ n ∈ names, '/' ∉ n.toList := fun n hn => hnames n (List.mem_cons_of_mem _ hn)
    rw [resolve]
    split_ifs with hvoid hup
    · exact ih hl hrest
    · exact ih (fun n hn => hl n (List.mem_of_mem_dropLast hn)) hrest
    · refine ih (fun n hn => ?_) hrest
      rcases List.mem_append.mp hn with hn | hn
      · exact hl n hn
      · obtain rfl := List.mem_singleton.mp hn
        exact ⟨by simpa using hvoid, hup, hnames _ List.mem_cons_self⟩

end Files

namespace Project

end Project

end Outdent
