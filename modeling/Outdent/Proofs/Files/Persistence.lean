import Outdent.Proofs.Files.Growth
import Outdent.Proofs.Files.Spelling
/-! # Doing again what was done to a tree

Where a tree has at least the directories and files that making directories and writing a text left
behind, doing the same again succeeds: directories that are there are not made, and a text is
written over a file. -/
namespace Outdent.Files.Tree

/-- The directories and the files of a tree are there in another one, the files perhaps with other
contents. -/
structure Keeps (t u : Tree) : Prop where
  directory : ∀ l, t.get? l = some .directory → u.get? l = some .directory
  file : ∀ l content, t.get? l = some (.file content) → ∃ other, u.get? l = some (.file other)

variable {t u v : Tree}

theorem keeps_refl (t : Tree) : t.Keeps t := ⟨fun _ hl => hl, fun _ content hl => ⟨content, hl⟩⟩

theorem Keeps.trans (h : t.Keeps u) (k : u.Keeps v) : t.Keeps v where
  directory l hl := k.directory l (h.directory l hl)
  file l content hl := by
    obtain ⟨other, ho⟩ := h.file l content hl
    exact k.file l other ho

theorem GrowsTo.keeps {places : Location → Prop} (h : t.GrowsTo places u) : t.Keeps u where
  directory l hl := by
    rcases h l with hsame | ⟨hnone, -⟩ | ⟨-, hfree, -⟩
    · exact hsame.trans hl
    · exact absurd (hnone.symm.trans hl) (by simp)
    · exact absurd hl hfree
  file l content hl := by
    rcases h.get?_text hl with hsame | ⟨-, text, hwritten⟩
    · exact ⟨content, hsame⟩
    · exact ⟨_, hwritten⟩

def SameFileAt (t u : Tree) (l : Location) : Prop :=
  ∀ content, u.get? l = some (.file content) ↔ t.get? l = some (.file content)

theorem GrowsTo.sameFileAt {places : Location → Prop} (h : t.GrowsTo places u) {l : Location}
    (hl : ¬ places l) : t.SameFileAt u l := by
  intro content
  rcases h l with hsame | ⟨hnone, hmade⟩ | ⟨hplace, -, -⟩
  · rw [hsame]
  · simp [hnone, hmade]
  · exact absurd hplace hl

theorem SameFileAt.match_eq {l : Location} (h : t.SameFileAt u l) {α : Type} (f : Content → α)
    (a : α) : (match u.get? l with | some (.file content) => f content | _ => a) =
      match t.get? l with | some (.file content) => f content | _ => a := by
  match ht : t.get? l with
  | some (.file content) => rw [(h content).mpr ht]
  | some .directory =>
    match hu : u.get? l with
    | some (.file content) => exact absurd (ht.symm.trans ((h content).mp hu)) (by simp)
    | some .directory => rfl
    | none => rfl
  | none =>
    match hu : u.get? l with
    | some (.file content) => exact absurd (ht.symm.trans ((h content).mp hu)) (by simp)
    | some .directory => rfl
    | none => rfl

theorem Keeps.follow (h : t.Keeps u) {l m : Location} {names : List String}
    (hm : t.follow l names = .ok m) : u.follow l names = .ok m := by
  induction names generalizing l with
  | nil => exact hm
  | cons name names ih =>
    rw [Tree.follow] at hm ⊢
    rcases hget : t.get? l with _ | _ | content
    · simp [hget] at hm
    · simp only [hget] at hm
      simp only [h.directory l hget]
      split_ifs at hm ⊢ with hvoid hup
      · exact ih hm
      · exact ih hm
      · exact ih hm
    · simp [hget] at hm

theorem Keeps.locate (h : t.Keeps u) {directory l : Location} {p : Path}
    (hl : t.locate directory p = .ok l) : u.locate directory p = .ok l := by
  rw [Tree.locate] at hl ⊢
  by_cases hempty : p = .empty
  · simp [hempty] at hl
  · rw [if_neg hempty] at hl ⊢
    exact h.follow hl

theorem Keeps.read (h : t.Keeps u) {directory : Location} {p : Path} {text : List Char}
    (hread : t.read directory p = .ok text) (hsame : t.SameFileAt u (p.resolved directory)) :
    u.read directory p = .ok text := by
  cases hlocate : t.locate directory p with
  | error fault => simp [Tree.read, find, hlocate, bind, Except.bind] at hread
  | ok l =>
    rw [← locate_eq_ok hlocate] at hsame
    rcases hget : t.get? l with _ | _ | content
    · simp [Tree.read, find, hlocate, hget, bind, Except.bind, throw, throwThe,
        MonadExceptOf.throw] at hread
    · simp [Tree.read, find, hlocate, hget, bind, Except.bind, pure, Except.pure, throw, throwThe,
        MonadExceptOf.throw] at hread
    · simp only [Tree.read, find, hlocate, h.locate hlocate, hget, (hsame content).mpr hget, bind,
        Except.bind, pure, Except.pure] at hread ⊢
      exact hread

theorem find_eq_ok_iff {directory l : Location} {p : Path} {e : Entry} :
    t.find directory p = .ok (l, e) ↔ t.locate directory p = .ok l ∧ t.get? l = some e := by
  cases hlocate : t.locate directory p with
  | error fault => simp [find, hlocate, bind, Except.bind]
  | ok m =>
    cases hget : t.get? m with
    | none =>
      simp only [find, hlocate, hget, bind, Except.bind, throw, throwThe, MonadExceptOf.throw]
      grind
    | some other =>
      simp only [find, hlocate, hget, bind, Except.bind, pure, Except.pure]
      grind

theorem isFile_iff {directory : Location} {p : Path} : t.isFile directory p = true ↔
    ∃ l content, t.locate directory p = .ok l ∧ t.get? l = some (.file content) := by
  cases hlocate : t.locate directory p with
  | error fault => simp [isFile, find, hlocate, bind, Except.bind]
  | ok l =>
    rcases hget : t.get? l with _ | _ | content
    · simp [isFile, find, hlocate, hget, bind, Except.bind, throw, throwThe, MonadExceptOf.throw]
    · simp [isFile, find, hlocate, hget, bind, Except.bind, pure, Except.pure]
    · simp [isFile, find, hlocate, hget, bind, Except.bind, pure, Except.pure]

/-- A path leads to a file, or does not, as before. It does not suffice that the same file is there:
the way to it might have been missing. -/
theorem Keeps.isFile_eq (h : t.Keeps u) {directory : Location} {p : Path}
    (hsame : t.SameFileAt u (p.resolved directory))
    (hway : ∀ content, t.get? (p.resolved directory) = some (.file content) →
      ∃ l, t.locate directory p = .ok l) : u.isFile directory p = t.isFile directory p := by
  rw [Bool.eq_iff_iff, isFile_iff, isFile_iff]
  constructor
  · rintro ⟨l, content, hl, hget⟩
    rw [locate_eq_ok hl] at hget
    have hthere := (hsame content).mp hget
    obtain ⟨m, hm⟩ := hway content hthere
    exact ⟨m, content, hm, locate_eq_ok hm ▸ hthere⟩
  · rintro ⟨l, content, hl, hget⟩
    rw [locate_eq_ok hl] at hget
    exact ⟨_, content, h.locate hl, locate_eq_ok hl ▸ (hsame content).mpr hget⟩

theorem Keeps.makeDirectories {made : Bool} {l : Location} {names : List String}
    (hmade : t.makeDirectories made l names = (u, none)) (h : u.Keeps v) (again : Bool) :
    v.makeDirectories again l names = (v, none) := by
  induction names generalizing t made l again with
  | nil => rfl
  | cons name names ih =>
    rw [Tree.makeDirectories] at hmade ⊢
    by_cases hup : name = ".."
    · rw [if_pos hup] at hmade ⊢
      exact ih hmade again
    · rw [if_neg hup] at hmade ⊢
      have hthere : ∀ {t' : Tree} {made' : Bool},
          t'.get? (l ++ [name]) = some .directory →
          t'.makeDirectories made' (l ++ [name]) names = (u, none) →
          v.get? (l ++ [name]) = some .directory := by
        intro t' made' hl hrest
        have hgrows := t'.growsTo_makeDirectories made' (l ++ [name]) names fun _ => False
        rw [hrest] at hgrows
        exact h.directory _ (hgrows.keeps.directory _ hl)
      rcases hget : t.get? (l ++ [name]) with _ | _ | content
      · simp only [hget] at hmade
        have hput : (t.put (l ++ [name]) .directory).get? (l ++ [name]) = some .directory :=
          get?_put_self t _ (by simp)
        simp only [hthere hput hmade]
        exact ih hmade again
      · simp only [hget] at hmade
        simp only [hthere hget hmade]
        exact ih hmade again
      · simp [hget] at hmade

theorem Keeps.write {directory : Location} {p : Path} {text : List Char} {t' : Tree}
    (hwrite : t.write directory p text = (t', none)) (h : t'.Keeps v) :
    v.write directory p text = (v.put (p.resolved directory) (.file (.text text)), none) := by
  have hthere := t.get?_write directory p text (by rw [hwrite])
  have hgrows := t.growsTo_write directory p text
  rw [hwrite] at hthere hgrows
  obtain ⟨other, hother⟩ := h.file _ _ hthere
  cases hlocate : t.locate directory p with
  | error fault => simp [Tree.write, hlocate] at hwrite
  | ok l =>
    have hl := (hgrows.keeps.trans h).locate hlocate
    rw [← locate_eq_ok hlocate] at hother ⊢
    simp only [Tree.write, hl, hother]

theorem files_put_directory {l : Location} (h : t.get? l = none) :
    (t.put l .directory).files = t.files := by
  have hlookup : t.entries.lookup l = none := by
    rw [get?] at h
    split at h
    · contradiction
    · exact h
  have hkept : t.entries.filter (fun old => old.1 != l) = t.entries := by
    rw [List.filter_eq_self]
    intro old hold
    have hne := List.lookup_eq_none_iff.mp hlookup old hold
    simpa [bne_comm] using hne
  simp [put, files, hkept]

theorem filter_files_put {q : Location → Bool} {l : Location} (hq : q l = false)
    (content : Content) : (t.put l (.file content)).files.filter (fun f => q f.1) =
      t.files.filter fun f => q f.1 := by
  have hentries : ∀ entries : List (Location × Entry),
      (⟨entries.filter fun old => old.1 != l⟩ : Tree).files.filter (fun f => q f.1) =
        (⟨entries⟩ : Tree).files.filter fun f => q f.1 := by
    intro entries
    induction entries with
    | nil => rfl
    | cons x entries ih =>
      obtain ⟨m, e⟩ := x
      by_cases hm : m = l
      · subst hm
        cases e <;> simpa [files, hq] using ih
      · cases e with
        | directory => simpa [files, hm] using ih
        | file other =>
          simp only [files] at ih
          simp [files, hm, List.filter_cons, ih]
  have hput : (t.put l (.file content)).files =
      (l, content) :: (⟨t.entries.filter fun old => old.1 != l⟩ : Tree).files := rfl
  rw [hput, List.filter_cons_of_neg (by simp [hq]), hentries]

theorem files_makeDirectories (made : Bool) (l : Location) (names : List String) :
    (t.makeDirectories made l names).1.files = t.files := by
  induction names generalizing t made l with
  | nil => rfl
  | cons name names ih =>
    by_cases hup : name = ".."
    · simpa [Tree.makeDirectories, hup] using ih made l.dropLast
    · rcases hget : t.get? (l ++ [name]) with _ | _ | content
      · simpa [Tree.makeDirectories, hup, hget, files_put_directory hget] using
          ih (t := t.put (l ++ [name]) .directory) true (l ++ [name])
      · simpa [Tree.makeDirectories, hup, hget] using ih made (l ++ [name])
      · simp [Tree.makeDirectories, hup, hget]

theorem filter_files_write {q : Location → Bool} {directory : Location} {p : Path}
    (hq : q (p.resolved directory) = false) (text : List Char) :
    (t.write directory p text).1.files.filter (fun f => q f.1) =
      t.files.filter fun f => q f.1 := by
  rcases t.write_cases directory p text with ⟨fault, h⟩ | ⟨-, h⟩
  · rw [h]
  · rw [h]
    exact filter_files_put hq _

def IsGrounded (t : Tree) : Prop := ∀ e ∈ t.entries, t.isDirectoryAt e.1.dropLast = true

instance (t : Tree) : Decidable t.IsGrounded := inferInstanceAs (Decidable (∀ _ ∈ _, _))

namespace IsGrounded

variable (h : t.IsGrounded)

include h

theorem dropLast {l : Location} {e : Entry} (hl : t.get? l = some e) :
    t.get? l.dropLast = some .directory := by
  cases l with
  | nil => rfl
  | cons name l =>
    have hlookup : t.entries.lookup (name :: l) = some e := hl
    have hmem : (name :: l, e) ∈ t.entries := by
      obtain ⟨front, back, heq, -⟩ := List.lookup_eq_some_iff.mp hlookup
      rw [heq]
      exact List.mem_append_right _ List.mem_cons_self
    simpa [isDirectoryAt] using h _ hmem

theorem isDirectory_of_isBelow {d l : Location} {e : Entry} (hl : t.get? l = some e)
    (hd : IsBelow d l) : t.get? d = some .directory := by
  obtain ⟨⟨rest, rfl⟩, hne⟩ := hd
  induction rest using List.reverseRecOn generalizing e with
  | nil => exact absurd (List.append_nil d).symm hne
  | append_singleton rest name ih =>
    have hparent := h.dropLast hl
    rw [← List.append_assoc, List.dropLast_concat] at hparent
    by_cases hnil : rest = []
    · rwa [hnil, List.append_nil] at hparent
    · exact ih hparent (by simp [hnil])

theorem follow {l : Location} {names : List String} {e : Entry} (hnames : ∀ n ∈ names, IsName n)
    (hl : t.get? (l ++ names) = some e) : t.follow l names = .ok (l ++ names) := by
  induction names generalizing l with
  | nil => simp [Tree.follow]
  | cons name names ih =>
    have hdirectory : t.get? l = some .directory :=
      h.isDirectory_of_isBelow hl ⟨List.prefix_append _ _, by simp⟩
    have hname := hnames name List.mem_cons_self
    have hrest := ih (l := l ++ [name]) (fun n hn => hnames n (List.mem_cons_of_mem _ hn))
      (by simpa using hl)
    rw [Tree.follow]
    simpa [hdirectory, hname.proper, hname.not_up] using hrest

end IsGrounded

theorem follow_append (t : Tree) (l : Location) (names more : List String) :
    t.follow l (names ++ more) = (t.follow l names).bind fun m => t.follow m more := by
  induction names generalizing l with
  | nil => rfl
  | cons name names ih =>
    simp only [List.cons_append, Tree.follow]
    rcases t.get? l with _ | _ | content
    · rfl
    · simp only
      split_ifs
      · exact ih l
      · exact ih l.dropLast
      · exact ih (l ++ [name])
    · rfl

theorem follow_withoutFinalSeparator {l m : Location} {names : List String}
    (h : t.follow l names = .ok m) :
    t.follow l (Path.withoutFinalSeparator names) = .ok m := by
  rw [Path.withoutFinalSeparator]
  split_ifs with hlast
  · rw [← List.dropLast_append_getLast? _ hlast, follow_append] at h
    cases hfront : t.follow l names.dropLast with
    | error fault => simp [hfront, Except.bind] at h
    | ok k =>
      rw [hfront] at h
      simp only [Except.bind, Tree.follow] at h
      split at h
      · contradiction
      · contradiction
      · simpa [isVoid] using h
  · exact h

theorem locate_join {directory l : Location} {p q : Path} (h : t.locate directory p = .ok l)
    (hq : q.isAbsolute = false) (hnames : q.names ≠ []) :
    t.locate directory (p.join q) = t.follow l q.names := by
  have hjoin : p.join q = ⟨p.isAbsolute, Path.withoutFinalSeparator p.names ++ q.names⟩ := by
    simp [Path.join, hq]
  have hne : p.join q ≠ .empty := by simp [hjoin, Path.empty, hnames]
  rw [Tree.locate] at h
  rw [Tree.locate, if_neg hne]
  split at h
  · contradiction
  · rw [hjoin, follow_append, follow_withoutFinalSeparator h, Except.bind]

end Outdent.Files.Tree
