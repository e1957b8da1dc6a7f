import Mathlib.Data.List.Infix
import Outdent.Files.Tree
/-! # Where paths lead

A path that can be followed leads to the location that is left of its names once void names are
passed over and two dots take away the name in front. From a location, names lead some way up and
from there down again. -/
namespace Outdent.Files

/-- Where names lead from a location, whatever is there. -/
def resolve : Location → List String → Location
  | l, [] => l
  | l, name :: names =>
    if isVoid name then resolve l names
    else if name = ".." then resolve l.dropLast names
    else resolve (l ++ [name]) names

theorem resolve_append (l : Location) (names more : List String) :
    resolve l (names ++ more) = resolve (resolve l names) more := by
  induction names generalizing l with
  | nil => rfl
  | cons name names ih => simp only [List.cons_append, resolve, ih]; split_ifs <;> rfl

theorem resolve_steps (l : Location) (names : List String) :
    resolve l (names.filter (! isVoid ·)) = resolve l names := by
  induction names generalizing l with
  | nil => rfl
  | cons name names ih =>
    by_cases hvoid : isVoid name = true
    · simp [resolve, hvoid, ih]
    · simp [resolve, hvoid, ih]

theorem resolve_withoutFinalSeparator (l : Location) (names : List String) :
    resolve l (Path.withoutFinalSeparator names) = resolve l names := by
  by_cases hlast : names.getLast? = some ""
  · have hnames : names.dropLast ++ [""] = names := List.dropLast_append_getLast? _ hlast
    conv => rhs; rw [← hnames, resolve_append]
    simp [Path.withoutFinalSeparator, hlast, resolve, isVoid]
  · simp [Path.withoutFinalSeparator, hlast]

theorem Tree.follow_eq_ok {t : Tree} {l m : Location} {names : List String}
    (h : t.follow l names = .ok m) : m = resolve l names := by
  induction names generalizing l with
  | nil => simpa [follow, resolve, eq_comm] using h
  | cons name names ih =>
    rw [follow] at h
    split at h
    · contradiction
    · contradiction
    · simp only [resolve]
      split_ifs at h ⊢ with hvoid hup
      · exact ih h
      · exact ih h
      · exact ih h

namespace Path

def resolved (directory : Location) (p : Path) : Location :=
  resolve (if p.isAbsolute then [] else directory) p.names

def parent (directory : Location) (p : Path) : Location :=
  resolve (if p.isAbsolute then [] else directory) p.steps.dropLast

theorem resolved_join (directory : Location) (p q : Path) :
    (p.join q).resolved directory = q.resolved (p.resolved directory) := by
  by_cases hq : q.isAbsolute = true
  · simp [join, resolved, hq]
  · simp only [join, resolved, hq, Bool.false_eq_true, if_false, resolve_append,
      resolve_withoutFinalSeparator]

theorem steps_of_fileName? {p : Path} {name : String} (h : p.fileName? = some name) :
    p.steps.dropLast ++ [name] = p.steps ∧ isVoid name = false ∧ name ≠ ".." := by
  cases hlast : p.steps.getLast? with
  | none => simp [fileName?, hlast] at h
  | some last =>
    simp only [fileName?, hlast] at h
    split_ifs at h with hup
    obtain rfl : last = name := by simpa using h
    have hmem : last ∈ p.names.filter (! isVoid ·) := List.mem_of_getLast? hlast
    exact ⟨List.dropLast_append_getLast? _ hlast, by simpa using (List.mem_filter.mp hmem).2, hup⟩

theorem resolved_of_fileName? {p : Path} {name : String} (h : p.fileName? = some name)
    (directory : Location) : p.resolved directory = p.parent directory ++ [name] := by
  obtain ⟨hsteps, hproper, hup⟩ := steps_of_fileName? h
  rw [resolved, ← resolve_steps, ← steps, ← hsteps, resolve_append]
  simp [resolve, hproper, hup, parent]

end Path

theorem Tree.locate_eq_ok {t : Tree} {directory l : Location} {p : Path}
    (h : t.locate directory p = .ok l) : l = p.resolved directory := by
  rw [locate] at h
  split at h
  · contradiction
  · exact follow_eq_ok h

theorem Tree.find_eq_ok {t : Tree} {directory l : Location} {p : Path} {e : Entry}
    (h : t.find directory p = .ok (l, e)) : l = p.resolved directory := by
  cases hlocate : t.locate directory p with
  | error fault => simp [find, hlocate, bind, Except.bind] at h
  | ok m =>
    cases hget : t.get? m <;>
      simp [find, hlocate, hget, bind, Except.bind, pure, Except.pure, throw, throwThe,
        MonadExceptOf.throw] at h
    rw [← h.1]
    exact locate_eq_ok hlocate

def IsBelow (d l : Location) : Prop := d <+: l ∧ d ≠ l

instance (d l : Location) : Decidable (IsBelow d l) := inferInstanceAs (Decidable (_ ∧ _))

theorem isBelow_append_iff (d m l : Location) : IsBelow (d ++ m) (d ++ l) ↔ IsBelow m l := by
  simp [IsBelow, List.prefix_append_right_inj]

theorem isBelow_append_singleton_iff (d l : Location) (name : String) :
    IsBelow d (l ++ [name]) ↔ d <+: l := by
  rw [IsBelow, List.prefix_concat_iff]
  constructor
  · rintro ⟨rfl | h, hne⟩
    · exact absurd rfl hne
    · exact h
  · intro h
    refine ⟨.inr h, ?_⟩
    rintro rfl
    exact absurd h.length_le (by simp)

/-- How far names lead upwards, and the names that lead downwards from there. -/
structure Route where
  up : Nat := 0
  down : List String := []
deriving DecidableEq

namespace Route

def along : Route → List String → Route
  | r, [] => r
  | r, name :: names =>
    if isVoid name then r.along names
    else if name = ".." then
      if r.down = [] then along ⟨r.up + 1, []⟩ names else along ⟨r.up, r.down.dropLast⟩ names
    else along ⟨r.up, r.down ++ [name]⟩ names

def endFrom (l : Location) (r : Route) : Location := l.take (l.length - r.up) ++ r.down

theorem endFrom_along (l : Location) (r : Route) (names : List String) :
    (r.along names).endFrom l = resolve (r.endFrom l) names := by
  induction names generalizing r with
  | nil => rfl
  | cons name names ih =>
    simp only [along, resolve]
    split_ifs with hvoid hup hdown
    · exact ih r
    · rw [ih]
      congr 1
      simp [endFrom, hdown, List.dropLast_eq_take, List.take_take]
      omega
    · rw [ih]
      congr 1
      simp [endFrom, List.dropLast_append_of_ne_nil hdown]
    · rw [ih]
      congr 1
      simp [endFrom]

theorem resolve_eq_endFrom (l : Location) (names : List String) :
    resolve l names = (along {} names).endFrom l := by
  rw [endFrom_along]
  simp [endFrom]

theorem along_append (r : Route) (names more : List String) :
    r.along (names ++ more) = (r.along names).along more := by
  induction names generalizing r with
  | nil => rfl
  | cons name names ih => simp only [List.cons_append, along, ih]; split_ifs <;> rfl

theorem along_steps (r : Route) (names : List String) :
    r.along (names.filter (! isVoid ·)) = r.along names := by
  induction names generalizing r with
  | nil => rfl
  | cons name names ih =>
    by_cases hvoid : isVoid name = true
    · simp [along, hvoid, ih]
    · simp [along, hvoid, ih]

theorem along_of_no_parent (r : Route) {names : List String} (h : ".." ∉ names) :
    r.along names = ⟨r.up, r.down ++ names.filter (! isVoid ·)⟩ := by
  induction names generalizing r with
  | nil => simp [along]
  | cons name names ih =>
    rw [List.mem_cons, not_or] at h
    by_cases hvoid : isVoid name = true
    · simp [along, hvoid, ih r h.2]
    · simp [along, hvoid, Ne.symm h.1, ih _ h.2]

/-- A route ends below where it starts exactly if it comes back through the names it has left, and
goes on. -/
theorem isBelow_endFrom_iff (d : Location) (r : Route) :
    IsBelow d (r.endFrom d) ↔ IsBelow (d.drop (d.length - r.up)) r.down := by
  conv => lhs; arg 1; rw [← List.take_append_drop (d.length - r.up) d]
  exact isBelow_append_iff _ _ _

end Route

end Outdent.Files
