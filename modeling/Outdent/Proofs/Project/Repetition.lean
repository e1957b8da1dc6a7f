import Outdent.Proofs.Files.Persistence
import Outdent.Proofs.Project.Writing
/-! # Going through sources a second time

A survey that writes and does not fail leaves a tree in which it can be made once more: the
directories are there, the texts that it wrote are files, and sources that nothing was written over
read as before. The second survey writes the same texts at the same places. -/
namespace Outdent

open Outdent.Files (Location Path Tree)
open Outdent.Placement (written writings)

namespace Files.Tree

/-- A tree that has the files of one tree at some places and is another tree elsewhere. -/
structure IsPatched (places : Location → Prop) (t u v : Tree) : Prop where
  at_places : ∀ l, places l →
    ∃ content, t.get? l = some (.file content) ∧ v.get? l = some (.file content)
  elsewhere : ∀ l, ¬ places l → v.get? l = u.get? l

variable {places more : Location → Prop} {t t' u v w : Tree}

theorem IsPatched.keeps (h : IsPatched places t u v) (ht : t.Keeps w) (hw : w.Keeps u) :
    w.Keeps v where
  directory l hl := by
    by_cases hplace : places l
    · obtain ⟨content, hcontent, -⟩ := h.at_places l hplace
      obtain ⟨other, ho⟩ := ht.file l content hcontent
      exact absurd (hl.symm.trans ho) (by simp)
    · exact (h.elsewhere l hplace).trans (hw.directory l hl)
  file l content hl := by
    by_cases hplace : places l
    · obtain ⟨other, -, ho⟩ := h.at_places l hplace
      exact ⟨other, ho⟩
    · obtain ⟨other, ho⟩ := hw.file l content hl
      exact ⟨other, (h.elsewhere l hplace).trans ho⟩

theorem IsPatched.trans (h : IsPatched places t u v) (k : IsPatched more t' v w)
    (hgrows : t.GrowsTo more t') : IsPatched (fun l => places l ∨ more l) t' u w where
  at_places l hl := by
    by_cases hmore : more l
    · exact k.at_places l hmore
    · obtain ⟨content, ht, hv⟩ := h.at_places l (hl.resolve_right hmore)
      rcases hgrows.get?_text ht with hsame | ⟨hplace, -⟩
      · exact ⟨content, hsame, (k.elsewhere l hmore).trans hv⟩
      · exact absurd hplace hmore
  elsewhere l hl := by
    rw [not_or] at hl
    rw [k.elsewhere l hl.2, h.elsewhere l hl.1]

theorem IsPatched.get?_eq (h : IsPatched places t t v) (l : Location) : v.get? l = t.get? l := by
  by_cases hplace : places l
  · obtain ⟨content, ht, hv⟩ := h.at_places l hplace
    exact hv.trans ht.symm
  · exact h.elsewhere l hplace

theorem SameFileAt.patched {l : Location} (h : t.SameFileAt u l) (hgrows : t.GrowsTo places t')
    (hpatched : IsPatched places t' u v) : t'.SameFileAt v l := by
  intro content
  by_cases hplace : places l
  · obtain ⟨other, ht, hv⟩ := hpatched.at_places l hplace
    rw [ht, hv]
  · rw [hpatched.elsewhere l hplace, h content, hgrows.sameFileAt hplace content]

end Files.Tree

open Outdent.Files.Tree (IsPatched Keeps)

namespace Placement

variable {directory : Location} {outDir : Path} {t t' u : Tree}

theorem writeAll_again {ws : List (Path × List Char)}
    (h : writeAll t directory ws = (t', none)) (hkeeps : t'.Keeps u) :
    ∃ u', writeAll u directory ws = (u', none) ∧
      IsPatched (· ∈ ws.map fun w => w.1.resolved directory) t' u u' := by
  induction ws generalizing t u with
  | nil =>
    exact ⟨u, rfl, ⟨fun l hl => absurd hl List.not_mem_nil, fun _ _ => rfl⟩⟩
  | cons w rest ih =>
    obtain ⟨path, text⟩ := w
    match hwrite : t.write directory path text with
    | (t₁, some fault) => simp [writeAll, hwrite] at h
    | (t₁, none) =>
      simp only [writeAll, hwrite] at h
      have hlater := growsTo_writeAll directory t₁ rest
      have hthere := t.get?_write directory path text (by rw [hwrite])
      rw [h] at hlater
      rw [hwrite] at hthere
      have hagain := Keeps.write hwrite (hlater.keeps.trans hkeeps)
      have hne : path.resolved directory ≠ [] := by
        intro hnil
        rw [hnil] at hthere
        simp [Tree.get?] at hthere
      have hpatched : IsPatched (· = path.resolved directory) t₁ u
          (u.put (path.resolved directory) (.file (.text text))) := by
        constructor
        · rintro l rfl
          exact ⟨.text text, hthere, Tree.get?_put_self u _ hne⟩
        · intro l hl
          exact Tree.get?_put_of_ne u _ hl
      obtain ⟨u', hu', hrest⟩ := ih h (hpatched.keeps hlater.keeps hkeeps)
      refine ⟨u', by simp only [writeAll, hagain, hu'], ?_⟩
      simpa only [List.map_cons, List.mem_cons] using hpatched.trans hrest hlater

theorem perform_again {v : Visit} (h : perform directory outDir t v = (t', none))
    (hkeeps : t'.Keeps u) : ∃ u', perform directory outDir u v = (u', none) ∧
      IsPatched (· ∈ written directory outDir v) t' u u' := by
  simp only [perform] at h
  split at h
  · simp at h
  · next made hmade =>
    have hwritten := growsTo_writeAll directory made (writings outDir v)
    rw [h] at hwritten
    have hagain := (hwritten.keeps.trans hkeeps).makeDirectories hmade false
    obtain ⟨u', hu', hpatched⟩ := writeAll_again h hkeeps
    exact ⟨u', by simp only [perform, hagain, hu'], hpatched⟩

theorem filter_files_writeAll {q : Location → Bool} (ws : List (Path × List Char))
    (hq : ∀ w ∈ ws, q (w.1.resolved directory) = false) :
    (writeAll t directory ws).1.files.filter (fun f => q f.1) =
      t.files.filter fun f => q f.1 := by
  induction ws generalizing t with
  | nil => rfl
  | cons w rest ih =>
    obtain ⟨path, text⟩ := w
    have hfirst := t.filter_files_write (hq _ List.mem_cons_self) text
    match hwrite : t.write directory path text with
    | (t₁, some fault) => simpa only [writeAll, hwrite] using hfirst
    | (t₁, none) =>
      rw [hwrite] at hfirst
      simp only [writeAll, hwrite]
      rw [ih fun w hw => hq w (List.mem_cons_of_mem _ hw), hfirst]

theorem filter_files_perform {q : Location → Bool} {v : Visit}
    (hq : ∀ l ∈ written directory outDir v, q l = false) :
    (perform directory outDir t v).1.files.filter (fun f => q f.1) =
      t.files.filter fun f => q f.1 := by
  have hmade := Tree.files_makeDirectories (t := t) false
    (if (target outDir v.source.id).isAbsolute then [] else directory)
    (target outDir v.source.id).steps.dropLast
  simp only [perform]
  split
  · next after fault heq =>
    rw [heq] at hmade
    rw [hmade]
  · next after heq =>
    rw [heq] at hmade
    rw [filter_files_writeAll _ fun w hw => hq _ (List.mem_map_of_mem hw), hmade]

end Placement

namespace Survey

variable {t : Transformer} {directory : Location} {outDir : Path} {action : Action}
  (hwrites : action.perform = Placement.perform directory outDir)

/-- The places where the visits of a survey write. -/
def Writes (directory : Location) (outDir : Path) (visits : List Visit) (l : Location) : Prop :=
  ∃ v ∈ visits, l ∈ written directory outDir v

theorem writes_cons {v : Visit} {visits : List Visit} {l : Location} :
    Writes directory outDir (v :: visits) l ↔
      l ∈ written directory outDir v ∨ Writes directory outDir visits l := by
  simp [Writes]

include hwrites

theorem filter_files_of {q : Location → Bool} {files : Tree} {sources : List Source}
    (h : (of t directory action files sources).failure = none)
    (hq : ∀ l, Writes directory outDir (of t directory action files sources).visits l →
      q l = false) :
    (of t directory action files sources).files.files.filter (fun f => q f.1) =
      files.files.filter fun f => q f.1 := by
  induction sources generalizing files with
  | nil => rfl
  | cons s rest ih =>
    obtain ⟨v, after, -, hperform, hrest, hvisits, hfiles⟩ := of_cons_eq h
    rw [hwrites] at hperform
    rw [hvisits] at hq
    have hfirst : (Placement.perform directory outDir files v).1.files.filter (fun f => q f.1) =
        files.files.filter fun f => q f.1 :=
      Placement.filter_files_perform fun l hl => hq l (writes_cons.mpr (.inl hl))
    rw [hperform] at hfirst
    rw [hfiles, ih hrest fun l hl => hq l (writes_cons.mpr (.inr hl)), hfirst]

/-- By induction on the sources, the two surveys side by side: what the first one visits is visited
again, in any tree that has what the first one left behind and the same sources. The sources stay
the same on the way, since both surveys write the same. -/
theorem of_again {files other : Tree} {sources : List Source}
    (h : (of t directory action files sources).failure = none)
    (hkeeps : (of t directory action files sources).files.Keeps other)
    (hsources : ∀ s ∈ sources, files.SameFileAt other (s.path.resolved directory)) :
    (of t directory action other sources).failure = none ∧
      IsPatched (Writes directory outDir (of t directory action files sources).visits)
        (of t directory action files sources).files other
        (of t directory action other sources).files := by
  induction sources generalizing files other with
  | nil => exact ⟨rfl, ⟨fun l ⟨v, hv, _⟩ => absurd hv List.not_mem_nil, fun _ _ => rfl⟩⟩
  | cons s rest ih =>
    have hgrows := growsTo_of_visits hwrites h
    cases hread : files.read directory s.path with
    | error fault => simp [of, hread] at h
    | ok text =>
      have hreadOther := (hgrows.keeps.trans hkeeps).read hread (hsources s List.mem_cons_self)
      cases ht : t.transform ⟨s.id, text⟩ with
      | error e => simp [of, hread, ht] at h
      | ok result =>
        rcases hperform : action.perform files ⟨s, text, result⟩ with ⟨after, _ | fault⟩
        · simp only [of, hread, ht, hperform] at h hkeeps hsources ⊢
          rw [hwrites] at hperform
          have hfirst := Placement.growsTo_perform directory outDir files ⟨s, text, result⟩
          rw [hperform] at hfirst
          have hlater := growsTo_of_visits hwrites h
          obtain ⟨next, hnext, hpatched⟩ :=
            Placement.perform_again hperform (hlater.keeps.trans hkeeps)
          have hsources' : ∀ s' ∈ rest,
              after.SameFileAt next (s'.path.resolved directory) := fun s' hs' =>
            (hsources s' (List.mem_cons_of_mem _ hs')).patched hfirst hpatched
          obtain ⟨hdone, hrest⟩ := ih h (hpatched.keeps hlater.keeps hkeeps) hsources'
          simp only [hreadOther, ht, hwrites, hnext]
          have hplaces : Writes directory outDir (⟨s, text, result⟩ ::
              (of t directory action after rest).visits) = fun l =>
                l ∈ written directory outDir ⟨s, text, result⟩ ∨
                  Writes directory outDir (of t directory action after rest).visits l :=
            funext fun l => propext writes_cons
          rw [hplaces]
          exact ⟨hdone, hpatched.trans hrest hlater⟩
        · simp [of, hread, ht, hperform] at h

end Survey

end Outdent
