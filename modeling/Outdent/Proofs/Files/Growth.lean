import Outdent.Proofs.Files.Resolution
/-! # What writing does to a tree

Directories are made where nothing was, and texts are written at the locations of their paths, over
a file or where nothing was. Everything else stays as it is, through any row of such steps. -/
namespace Outdent.Files.Tree

/-- A tree comes from another one by making directories and writing texts at some places. -/
def GrowsTo (places : Location → Prop) (t u : Tree) : Prop :=
  ∀ l, u.get? l = t.get? l ∨ (t.get? l = none ∧ u.get? l = some .directory) ∨
    (places l ∧ t.get? l ≠ some .directory ∧ ∃ text, u.get? l = some (.file (.text text)))

namespace GrowsTo

variable {places more : Location → Prop} {t u v : Tree}

theorem refl (places : Location → Prop) (t : Tree) : t.GrowsTo places t := fun _ => .inl rfl

theorem mono (h : t.GrowsTo places u) (hle : ∀ l, places l → more l) : t.GrowsTo more u := by
  intro l
  rcases h l with hsame | hmade | ⟨hplace, hwritten⟩
  · exact .inl hsame
  · exact .inr (.inl hmade)
  · exact .inr (.inr ⟨hle l hplace, hwritten⟩)

theorem trans (h : t.GrowsTo places u) (k : u.GrowsTo places v) : t.GrowsTo places v := by
  intro l
  -- what the first step put at a location is there for the second, which only writes over texts
  rcases k l with hsame | ⟨hnone, hmade⟩ | ⟨hplace, hfree, text, hwritten⟩
  · rw [hsame]
    exact h l
  · rcases h l with hl | ⟨_, hl⟩ | ⟨_, _, text, hl⟩
    · exact .inr (.inl ⟨hl ▸ hnone, hmade⟩)
    · exact absurd (hnone.symm.trans hl) (by simp)
    · exact absurd (hnone.symm.trans hl) (by simp)
  · rcases h l with hl | ⟨_, hl⟩ | ⟨_, hold, _⟩
    · exact .inr (.inr ⟨hplace, hl ▸ hfree, text, hwritten⟩)
    · exact absurd hl hfree
    · exact .inr (.inr ⟨hplace, hold, text, hwritten⟩)

theorem get?_text (h : t.GrowsTo places u) {l : Location} {content : Content}
    (hl : t.get? l = some (.file content)) :
    u.get? l = some (.file content) ∨
      (places l ∧ ∃ text, u.get? l = some (.file (.text text))) := by
  rcases h l with hsame | ⟨hnone, _⟩ | ⟨hplace, _, hwritten⟩
  · exact .inl (hsame.trans hl)
  · exact absurd (hnone.symm.trans hl) (by simp)
  · exact .inr ⟨hplace, hwritten⟩

theorem place_of_changed (h : t.GrowsTo places u) {l : Location} {content : Content}
    (hl : u.get? l = some (.file content)) (hchanged : t.get? l ≠ some (.file content)) :
    places l := by
  rcases h l with hsame | ⟨-, hmade⟩ | ⟨hplace, -⟩
  · exact absurd (hsame.symm.trans hl) hchanged
  · exact absurd (hl.symm.trans hmade) (by simp)
  · exact hplace

theorem place_of_mem_changedSince (h : t.GrowsTo places u) {f : Location × Content}
    (hf : f ∈ u.changedSince t) (hl : u.get? f.1 = some (.file f.2)) : places f.1 :=
  h.place_of_changed hl (by simpa using (List.mem_filter.mp hf).2)

end GrowsTo

variable (t : Tree)

theorem growsTo_put_directory {l : Location} (h : t.get? l = none) (places : Location → Prop) :
    t.GrowsTo places (t.put l .directory) := by
  intro m
  have hne : l ≠ [] := by
    rintro rfl
    simp [get?] at h
  by_cases hm : m = l
  · subst hm
    exact .inr (.inl ⟨h, get?_put_self t _ hne⟩)
  · exact .inl (get?_put_of_ne t _ hm)

theorem growsTo_put_text {l : Location} (h : t.get? l ≠ some .directory) (text : List Char) :
    t.GrowsTo (· = l) (t.put l (.file (.text text))) := by
  intro m
  have hne : l ≠ [] := by
    rintro rfl
    simp [get?] at h
  by_cases hm : m = l
  · subst hm
    exact .inr (.inr ⟨rfl, h, text, get?_put_self t _ hne⟩)
  · exact .inl (get?_put_of_ne t _ hm)

theorem growsTo_makeDirectories (made : Bool) (l : Location) (names : List String)
    (places : Location → Prop) : t.GrowsTo places (t.makeDirectories made l names).1 := by
  induction names generalizing t made l with
  | nil => exact .refl _ t
  | cons name names ih =>
    by_cases hup : name = ".."
    · simpa [makeDirectories, hup] using ih t made _
    · match hl : t.get? (l ++ [name]) with
      | some .directory => simpa [makeDirectories, hup, hl] using ih t made _
      | some (.file content) => simpa [makeDirectories, hup, hl] using .refl _ t
      | none =>
        simpa [makeDirectories, hup, hl] using
          (growsTo_put_directory t hl places).trans (ih _ true _)

theorem write_cases (directory : Location) (p : Path) (text : List Char) :
    (∃ fault, t.write directory p text = (t, some fault)) ∨
      (t.get? (p.resolved directory) ≠ some .directory ∧
        t.write directory p text = (t.put (p.resolved directory) (.file (.text text)), none)) := by
  cases hlocate : t.locate directory p with
  | error fault => exact .inl ⟨fault, by simp [write, hlocate]⟩
  | ok l =>
    rw [← locate_eq_ok hlocate]
    match hl : t.get? l with
    | some .directory => exact .inl ⟨.isDirectory, by simp [write, hlocate, hl]⟩
    | some (.file content) => exact .inr ⟨by simp, by simp [write, hlocate, hl]⟩
    | none =>
      by_cases hparent : t.isDirectoryAt l.dropLast = true
      · exact .inr ⟨by simp, by simp [write, hlocate, hl, hparent]⟩
      · exact .inl ⟨.notFound, by simp [write, hlocate, hl, hparent]⟩

theorem growsTo_write (directory : Location) (p : Path) (text : List Char) :
    t.GrowsTo (· = p.resolved directory) (t.write directory p text).1 := by
  rcases t.write_cases directory p text with ⟨fault, h⟩ | ⟨hfree, h⟩
  · rw [h]
    exact .refl _ t
  · rw [h]
    exact growsTo_put_text t hfree text

theorem get?_write (directory : Location) (p : Path) (text : List Char)
    (h : (t.write directory p text).2 = none) :
    (t.write directory p text).1.get? (p.resolved directory) = some (.file (.text text)) := by
  rcases t.write_cases directory p text with ⟨fault, hw⟩ | ⟨hfree, hw⟩
  · simp [hw] at h
  · rw [hw]
    refine get?_put_self t _ ?_
    intro hnil
    simp [hnil, get?] at hfree

end Outdent.Files.Tree
