import Mathlib.Algebra.Order.BigOperators.Group.List
import Mathlib.Algebra.Order.Group.Nat
import Mathlib.Algebra.Ring.Nat
import Mathlib.Data.List.TakeWhile
import Outdent.Proofs.Project.Collision
/-! # Two ways to the identifier of a file

A walk takes the names that lead from the root to a file for its identifier. A file that is named
gets what is left of its path when the names of the root are taken from its front, and nothing in
either path is resolved first. So the two identifiers are the same exactly if the path is spelled as
the root and the names of the file, with void names around them and none between. -/
namespace Outdent

open Outdent.Files (IsName Location Path Route Tree isVoid resolve resolve_of_isName)

namespace Files

namespace Route

theorem down_along_sublist (r : Route) (names : List String) :
    (r.along names).down.Sublist (r.down ++ names) := by
  induction names generalizing r with
  | nil => simp [along]
  | cons name names ih =>
    have hskip : (r.down ++ names).Sublist (r.down ++ name :: names) :=
      (List.sublist_cons_self name names).append_left r.down
    simp only [along]
    split_ifs with hvoid hup hdown
    · exact (ih r).trans hskip
    · refine (ih ⟨r.up + 1, []⟩).trans ?_
      rw [hdown]
      exact List.sublist_cons_self name names
    · exact (ih ⟨r.up, r.down.dropLast⟩).trans
        (((List.dropLast_sublist r.down).append_right names).trans hskip)
    · refine (ih ⟨r.up, r.down ++ [name]⟩).trans ?_
      simp

/-- Where names lead from a location to one below it, the names below are among them. -/
theorem sublist_of_resolve_eq_append {l : Location} {way names : List String}
    (h : resolve l way = l ++ names) : names.Sublist way := by
  have hdown := down_along_sublist {} way
  rw [resolve_eq_endFrom, endFrom] at h
  generalize along {} way = r at h hdown
  have hsplit : l.take (l.length - r.up) ++ r.down =
      l.take (l.length - r.up) ++ (l.drop (l.length - r.up) ++ names) := by
    rw [h, ← List.append_assoc, List.take_append_drop]
  rw [List.append_cancel_left hsplit] at hdown
  exact (List.sublist_append_right _ _).trans hdown

end Route

namespace Path

theorem exists_front_of_namesAfter {steps names rest : List String}
    (h : namesAfter steps names = some rest) :
    ∃ front, names = front ++ rest ∧ front.filter (! isVoid ·) = steps := by
  fun_induction namesAfter steps names with
  | case1 names =>
    obtain rfl := Option.some.inj h
    refine ⟨names.takeWhile isVoid, List.takeWhile_append_dropWhile.symm, ?_⟩
    rw [List.filter_eq_nil_iff]
    intro n hn
    simp [List.mem_takeWhile_imp hn]
  | case2 => contradiction
  | case3 s ss name names hvoid ih =>
    obtain ⟨front, rfl, hfront⟩ := ih h
    exact ⟨name :: front, rfl, by simp [hvoid, hfront]⟩
  | case4 ss name names hvoid ih =>
    obtain ⟨front, rfl, hfront⟩ := ih h
    exact ⟨name :: front, rfl, by simp [hvoid, hfront]⟩
  | case5 => contradiction

theorem namesAfter_append (front rest : List String) :
    namesAfter (front.filter (! isVoid ·)) (front ++ rest) = some (rest.dropWhile isVoid) := by
  induction front with
  | nil => simp [namesAfter]
  | cons name front ih =>
    by_cases hvoid : isVoid name = true
    · have hskip : namesAfter (front.filter (! isVoid ·)) (name :: (front ++ rest)) =
          namesAfter (front.filter (! isVoid ·)) (front ++ rest) := by
        cases front.filter (! isVoid ·) <;> simp [namesAfter, hvoid]
      simp [hvoid, hskip, ih]
    · simp [hvoid, namesAfter, ih]

theorem exists_withoutFinalVoids (names : List String) :
    ∃ tail, names = withoutFinalVoids names ++ tail ∧ ∀ n ∈ tail, isVoid n = true := by
  refine ⟨(names.reverse.takeWhile isVoid).reverse, ?_, ?_⟩
  · rw [withoutFinalVoids, ← List.reverse_append, List.takeWhile_append_dropWhile,
      List.reverse_reverse]
  · intro n hn
    exact List.mem_takeWhile_imp (List.mem_reverse.mp hn)

theorem withoutFinalVoids_append {names tail : List String} (hnames : ∀ n ∈ names, isVoid n = false)
    (htail : ∀ n ∈ tail, isVoid n = true) : withoutFinalVoids (names ++ tail) = names := by
  have hdrop : names.reverse.dropWhile isVoid = names.reverse := by
    rw [List.dropWhile_eq_self_iff]
    intro hlength
    exact ne_true_of_eq_false (hnames _ (List.mem_reverse.mp (List.getElem_mem hlength)))
  rw [withoutFinalVoids, List.reverse_append,
    List.dropWhile_append_of_pos fun n hn => htail n (List.mem_reverse.mp hn), hdrop,
    List.reverse_reverse]

/-- Below a directory stand the paths that are spelled as the directory and some proper names, with
void names around them. -/
theorem below?_eq_some_iff {p directory : Path} {names : List String}
    (h : ∀ n ∈ names, isVoid n = false) : p.below? directory = some ⟨false, names⟩ ↔
      ∃ front tail, p.names = front ++ names ++ tail ∧
        front.filter (! isVoid ·) = directory.steps ∧ ∀ n ∈ tail, isVoid n = true := by
  constructor
  · intro hbelow
    obtain ⟨rest, hrest, heq⟩ := Option.map_eq_some_iff.mp hbelow
    obtain ⟨front, hfront, hsteps⟩ := exists_front_of_namesAfter hrest
    obtain ⟨tail, htail, hvoid⟩ := exists_withoutFinalVoids rest
    have hnames : withoutFinalVoids rest = names := congrArg Path.names heq
    refine ⟨front, tail, ?_, hsteps, hvoid⟩
    rw [hfront, List.append_assoc, ← hnames, ← htail]
  · rintro ⟨front, tail, hp, hsteps, htail⟩
    have hdrop : withoutFinalVoids ((names ++ tail).dropWhile isVoid) = names := by
      cases names with
      | nil =>
        have hnone : tail.dropWhile isVoid = [] := List.dropWhile_eq_nil_iff.mpr htail
        rw [List.nil_append, hnone]
        rfl
      | cons name names =>
        have hfirst : ¬ isVoid name = true := by simp [h name List.mem_cons_self]
        rw [List.cons_append, List.dropWhile_cons_of_neg hfirst, ← List.cons_append]
        exact withoutFinalVoids_append h htail
    rw [below?, ← hsteps, hp, List.append_assoc, namesAfter_append, Option.map_some, hdrop]

end Path

def spelledLength (names : List String) : Nat :=
  (names.map String.length).sum + (names.length - 1)

theorem length_intercalate (names : List String) :
    (String.intercalate "/" names).length = spelledLength names := by
  induction names with
  | nil => rfl
  | cons name names ih =>
    cases names with
    | nil => simp [spelledLength]
    | cons next names =>
      rw [String.intercalate_cons_cons, String.length_append, String.length_append, ih]
      simp only [spelledLength, List.map_cons, List.sum_cons, List.length_cons]
      have hseparator : "/".length = 1 := rfl
      omega

theorem spelledLength_le {names more : List String} (h : names.Sublist more) :
    spelledLength names ≤ spelledLength more := by
  have hsum := (h.map String.length).sum_le_sum fun _ _ => Nat.zero_le _
  have hlength := h.length_le
  simp only [spelledLength]
  omega

theorem eq_of_spelledLength_eq {names more : List String} (h : names.Sublist more)
    (hfirst : more.head? ≠ some "") (heq : spelledLength names = spelledLength more) :
    names = more := by
  have hsum := (h.map String.length).sum_le_sum fun _ _ => Nat.zero_le _
  refine h.eq_of_length_le ?_
  by_contra hlt
  simp only [spelledLength] at heq
  cases names with
  | nil =>
    cases more with
    | nil => exact hlt (Nat.le_refl _)
    | cons first more =>
      have hlength : first.length ≠ 0 := by
        rw [Ne, String.length_eq_zero_iff]
        rintro rfl
        exact hfirst rfl
      simp only [List.map_cons, List.sum_cons, List.map_nil, List.sum_nil, List.length_nil] at heq
      omega
  | cons name names =>
    simp only [List.length_cons] at hlt heq hsum
    omega

end Files

namespace Project

variable {p : Project}

theorem length_identifier (q : Path) : (identifier q).length =
    (if q.isAbsolute then 1 else 0) + Files.spelledLength q.names := by
  have hslashed : (identifier q).length = q.spelling.length := by
    rw [identifier, String.length_ofList, Filter.slashed, List.length_map, String.length_toList]
  rw [hslashed, Path.spelling, String.length_append, Files.length_intercalate]
  cases q.isAbsolute <;> rfl

theorem id_named (p : Project) (file : String) : (p.named file).id =
    identifier (((p.named file).path.below? p.absoluteRoot).getD (p.named file).path) := rfl

/-- A path gets the identifier that some names spell, which lead from the root to its file, exactly
if they are what is left of it below the root. If it does not start with the root its whole spelling
counts, which is longer; otherwise the names are among those that are left, and spelled as long. -/
theorem id_named_eq_iff_below? (hp : p.IsNamed) {file : String} {names : List String}
    (hlocation : (p.named file).path.resolved p.directory = p.rootAt ++ names) :
    (p.named file).id = identifier ⟨false, names⟩ ↔
      (p.named file).path.below? p.absoluteRoot = some ⟨false, names⟩ := by
  have habsolute : (p.named file).path.isAbsolute = true := isAbsolute_join_ofSteps _ _
  constructor
  · intro hid
    have hlength := congrArg String.length hid
    rw [id_named] at hlength
    simp only [length_identifier] at hlength
    cases hbelow : (p.named file).path.below? p.absoluteRoot with
    | none =>
      rw [Path.resolved, if_pos habsolute] at hlocation
      have hall : (p.rootAt ++ names).Sublist (p.named file).path.names :=
        Route.sublist_of_resolve_eq_append (l := []) hlocation
      have hle := Files.spelledLength_le ((List.sublist_append_right _ _).trans hall)
      rw [hbelow, Option.getD_none, habsolute] at hlength
      simp only [if_true, Bool.false_eq_true, if_false] at hlength
      omega
    | some way =>
      obtain ⟨hrelative, hfirst⟩ := Path.relative_of_below? hbelow
      have hway : resolve p.rootAt way.names = p.rootAt ++ names := by
        have hroot : p.absoluteRoot.isAbsolute = true := isAbsolute_join_ofSteps _ _
        rw [← hlocation, ← hp.resolved_absoluteRoot p.directory]
        exact Path.resolved_of_below? hbelow p.directory (hroot.trans habsolute.symm)
      rw [hbelow, Option.getD_some, hrelative] at hlength
      simp only [Bool.false_eq_true, if_false, Nat.zero_add] at hlength
      rw [Files.eq_of_spelledLength_eq (Route.sublist_of_resolve_eq_append hway) hfirst
        hlength.symm, ← hrelative]
  · intro hbelow
    rw [id_named, hbelow]
    rfl

theorem names_named (hp : p.IsNamed) {file : String} {names : List String}
    (hlocation : (p.named file).path.resolved p.directory = p.rootAt ++ names)
    (hclean : ∀ n ∈ (p.named file).path.names, IsName n)
    (hroot : ∀ n ∈ p.absoluteRoot.names, IsName n) :
    (p.named file).path.names = p.rootAt ++ names ∧
      p.rootAt.filter (! isVoid ·) = p.absoluteRoot.steps := by
  have habsolute : (p.named file).path.isAbsolute = true := isAbsolute_join_ofSteps _ _
  constructor
  · rwa [Path.resolved, if_pos habsolute, resolve_of_isName hclean, List.nil_append] at hlocation
  · have hresolved := hp.resolved_absoluteRoot p.directory
    rw [Path.resolved, resolve_of_isName hroot, absoluteRoot, isAbsolute_join_ofSteps, if_pos rfl,
      List.nil_append] at hresolved
    rw [Path.steps, absoluteRoot, hresolved]

/-- A walk and a path that leads to the same file agree on its identifier exactly if the names of
the path are those of the root, then those that the walk goes along, with void names around them
only. So they do where no path holds a void name or two dots, and others may not. -/
theorem id_named_eq_iff (hp : p.IsNamed) {found : List Source} (hwalk : p.walk = .ok found)
    {s : Source} (hs : s ∈ found) {file : String}
    (hfile : p.fileAt (p.named file) = p.fileAt s) :
    ∃ names, (∀ n ∈ names, IsName n) ∧ s = walked (p.rootAt ++ names) names ∧
      ((p.named file).id = s.id ↔ ∃ front tail,
        (p.named file).path.names = front ++ names ++ tail ∧
          front.filter (! isVoid ·) = p.absoluteRoot.steps ∧ ∀ n ∈ tail, isVoid n = true) ∧
      ((∀ n ∈ (p.named file).path.names, IsName n) → (∀ n ∈ p.absoluteRoot.names, IsName n) →
        (p.named file).id = s.id) := by
  obtain ⟨names, hnames, rfl⟩ := exists_names_of_walk hp hwalk hs
  have hwalked : ∀ n ∈ p.rootAt ++ names, IsName n := by
    intro n hn
    exact (List.mem_append.mp hn).elim (hp.isName_rootAt n) (hnames n)
  have hlocation : (p.named file).path.resolved p.directory = p.rootAt ++ names :=
    Eq.trans hfile (fileAt_walked_eq hwalked names)
  have hiff : (p.named file).id = (walked (p.rootAt ++ names) names).id ↔ ∃ front tail,
      (p.named file).path.names = front ++ names ++ tail ∧
        front.filter (! isVoid ·) = p.absoluteRoot.steps ∧ ∀ n ∈ tail, isVoid n = true :=
    (id_named_eq_iff_below? hp hlocation).trans
      (Path.below?_eq_some_iff fun n hn => (hnames n hn).proper)
  refine ⟨names, hnames, rfl, hiff, fun hclean hroot => hiff.mpr ?_⟩
  obtain ⟨hspelled, hsteps⟩ := names_named hp hlocation hclean hroot
  exact ⟨p.rootAt, [], by rw [List.append_nil, hspelled], hsteps, by simp⟩

def beside (root : String) : Project where
  files := ⟨[(["w"], .directory), (["w", "src"], .directory),
    (["w", "src", "a.js"], .file (.text "1;\n".toList))]⟩
  directory := ["w", "src"]
  root := .ofString root

def besideFound : Source := walked ["w", "src", "a.js"] ["src", "a.js"]

/-- With void names in both paths the identifiers agree. -/
theorem id_named_beside : (beside "//w/.").IsNamed ∧
    (beside "//w/.").walk = .ok [besideFound] ∧
    (beside "//w/.").fileAt ((beside "//w/.").named "/w//./src/a.js") =
      (beside "//w/.").fileAt besideFound ∧
    ∃ names, (∀ n ∈ names, IsName n) ∧
      besideFound = walked ((beside "//w/.").rootAt ++ names) names ∧
      (((beside "//w/.").named "/w//./src/a.js").id = besideFound.id ↔ ∃ front tail,
        ((beside "//w/.").named "/w//./src/a.js").path.names = front ++ names ++ tail ∧
          front.filter (! isVoid ·) = (beside "//w/.").absoluteRoot.steps ∧
          ∀ n ∈ tail, isVoid n = true) ∧
      ((∀ n ∈ ((beside "//w/.").named "/w//./src/a.js").path.names, IsName n) →
        (∀ n ∈ (beside "//w/.").absoluteRoot.names, IsName n) →
        ((beside "//w/.").named "/w//./src/a.js").id = besideFound.id) ∧
      ((beside "//w/.").named "/w//./src/a.js").id = besideFound.id := by
  have hnamed : (beside "//w/.").IsNamed :=
    ⟨by decide +kernel, by decide +kernel, by decide +kernel⟩
  have hwalk : (beside "//w/.").walk = .ok [besideFound] := by decide +kernel
  have hfile : (beside "//w/.").fileAt ((beside "//w/.").named "/w//./src/a.js") =
      (beside "//w/.").fileAt besideFound := by decide +kernel
  obtain ⟨names, hnames, hfound, hiff, hplain⟩ :=
    id_named_eq_iff hnamed hwalk List.mem_cons_self hfile
  have hroot : (beside "//w/.").rootAt = ["w"] := by decide +kernel
  have hpath : ["w", "src", "a.js"] = (beside "//w/.").rootAt ++ names :=
    congrArg (fun s : Source => s.path.names) hfound
  obtain rfl : ["src", "a.js"] = names := by simpa [hroot] using hpath
  have hid : ((beside "//w/.").named "/w//./src/a.js").id = besideFound.id :=
    hiff.mpr ⟨["w", "", "."], [], by decide +kernel, by decide +kernel, by simp⟩
  exact ⟨hnamed, hwalk, hfile, _, hnames, hfound, hiff, hplain, hid⟩

/-- Below a root that two dots lead to, a file that is named next to the program does not get the
identifier that a walk gives it. -/
theorem not_id_named_beside : ¬ ∀ found, (beside "..").walk = .ok found → ∀ s ∈ found,
    ∀ file, (beside "..").fileAt ((beside "..").named file) = (beside "..").fileAt s →
      ((beside "..").named file).id = s.id := by
  intro hall
  have hwalk : (beside "..").walk = .ok [besideFound] := by decide +kernel
  have hfile : (beside "..").fileAt ((beside "..").named "a.js") =
      (beside "..").fileAt besideFound := by decide +kernel
  have hid := hall _ hwalk _ List.mem_cons_self "a.js" hfile
  exact absurd hid (by decide +kernel)

end Project

end Outdent
