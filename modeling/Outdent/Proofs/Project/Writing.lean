import Outdent.Project.Rewriting
import Outdent.Proofs.Files.Growth
/-! # What a rewriting writes

A source has a place below the output directory, which its identifier spells, and its map stands
beside it. A visit writes at these two locations only. The text of a source stands at its location
until a later visit writes there. -/
namespace Outdent

open Outdent.Files (Location Path Tree isVoid resolve)

namespace Files.Path

theorem steps_join (p q : Path) :
    (p.join q).steps = if q.isAbsolute then q.steps else p.steps ++ q.steps := by
  by_cases hq : q.isAbsolute = true
  · simp [join, hq]
  · have hfinal : (withoutFinalSeparator p.names).filter (! isVoid ·) =
        p.names.filter (! isVoid ·) := by
      by_cases hlast : p.names.getLast? = some ""
      · conv => rhs; rw [← List.dropLast_append_getLast? _ hlast]
        simp [withoutFinalSeparator, hlast, isVoid]
      · simp [withoutFinalSeparator, hlast]
    simp [join, hq, steps, hfinal]

theorem fileName?_join {p q : Path} {name : String} (h : q.fileName? = some name) :
    (p.join q).fileName? = some name := by
  have hsteps : q.steps ≠ [] := by
    intro hnil
    simp [fileName?, hnil] at h
  rw [← h, fileName?, fileName?, steps_join]
  split_ifs
  · rfl
  · rw [List.getLast?_append_of_ne_nil _ hsteps]

end Files.Path

namespace Placement

/-- The path below an output directory that a source is given by its identifier. -/
def place (id : String) : Path :=
  let path := Path.ofString id
  if path.isAbsolute then (path.fileName?.map fun name => ⟨false, [name]⟩).getD path else path

theorem target_eq (outDir : Path) (id : String) : target outDir id = outDir.join (place id) := by
  simp only [target, place]
  split_ifs <;> rfl

theorem resolved_mapTarget {target : Path} {name : String} (h : target.fileName? = some name)
    (directory : Location) :
    (mapTarget target).resolved directory = target.parent directory ++ [name ++ ".map"] := by
  have hlength : ".map".length ≤ (name ++ ".map").length := by simp [String.length_append]
  have hproper : isVoid (name ++ ".map") = false := by
    simp only [isVoid, Bool.or_eq_false_iff, beq_eq_false_iff_ne]
    constructor <;> intro heq <;> rw [heq] at hlength <;> exact absurd hlength (by decide)
  have hup : name ++ ".map" ≠ ".." := by
    intro heq
    rw [heq] at hlength
    exact absurd hlength (by decide)
  simp [mapTarget, mapName, h, Path.resolved, Path.parent, Files.resolve_append, resolve, hproper,
    hup]

section locations

variable (directory : Location) (outDir : Path)

def codeAt (id : String) : Location := (target outDir id).resolved directory

def mapAt (id : String) : Location := (mapTarget (target outDir id)).resolved directory

theorem codeAt_eq (id : String) :
    codeAt directory outDir id = (place id).resolved (outDir.resolved directory) := by
  rw [codeAt, target_eq, Path.resolved_join]

theorem exists_parent {id name : String} (h : (place id).fileName? = some name) :
    ∃ parent, codeAt directory outDir id = parent ++ [name] ∧
      mapAt directory outDir id = parent ++ [name ++ ".map"] := by
  have htarget : (target outDir id).fileName? = some name := by
    rw [target_eq]
    exact Path.fileName?_join h
  exact ⟨_, Path.resolved_of_fileName? htarget directory, resolved_mapTarget htarget directory⟩

def written (v : Visit) : List Location :=
  (writings outDir v).map fun w => w.1.resolved directory

def content (v : Visit) : List Char :=
  match v.result with
  | none => v.text
  | some r =>
    match r.map with
    | none => r.code
    | some _ => withReference r.code (mapName (target outDir v.source.id))

theorem writings_eq (v : Visit) : ∃ maps,
    (∀ w ∈ maps, w.1 = mapTarget (target outDir v.source.id)) ∧
    writings outDir v = maps ++ [(target outDir v.source.id, content outDir v)] := by
  match hresult : v.result with
  | none => exact ⟨[], by simp, by simp [writings, content, hresult]⟩
  | some r =>
    match hmap : r.map with
    | none => exact ⟨[], by simp, by simp [writings, content, hresult, hmap]⟩
    | some m =>
      exact ⟨[(mapTarget (target outDir v.source.id), m.toJson)], by simp,
        by simp [writings, content, hresult, hmap]⟩

theorem mem_written {v : Visit} {l : Location} (h : l ∈ written directory outDir v) :
    l = codeAt directory outDir v.source.id ∨ l = mapAt directory outDir v.source.id := by
  obtain ⟨maps, hmaps, heq⟩ := writings_eq outDir v
  rw [written, heq, List.map_append, List.mem_append] at h
  rcases h with h | h
  · obtain ⟨w, hw, rfl⟩ := List.mem_map.mp h
    exact .inr (by rw [hmaps w hw, mapAt])
  · exact .inl (by simpa [codeAt] using h)

variable (files : Tree)

theorem growsTo_writeAll (ws : List (Path × List Char)) :
    files.GrowsTo (· ∈ ws.map fun w => w.1.resolved directory) (writeAll files directory ws).1 := by
  induction ws generalizing files with
  | nil => exact .refl _ files
  | cons w rest ih =>
    obtain ⟨path, text⟩ := w
    have hfirst : files.GrowsTo (· ∈ ((path, text) :: rest).map fun w => w.1.resolved directory)
        (files.write directory path text).1 :=
      (files.growsTo_write directory path text).mono fun l hl => by simp [hl]
    match hwrite : files.write directory path text with
    | (after, some fault) => simpa [writeAll, hwrite] using hfirst
    | (after, none) =>
      rw [hwrite] at hfirst
      simp only [writeAll, hwrite]
      exact hfirst.trans ((ih after).mono fun l hl => List.mem_cons_of_mem _ hl)

theorem get?_writeAll {ws : List (Path × List Char)} {path : Path} {text : List Char}
    (h : (writeAll files directory (ws ++ [(path, text)])).2 = none) :
    (writeAll files directory (ws ++ [(path, text)])).1.get? (path.resolved directory) =
      some (.file (.text text)) := by
  induction ws generalizing files with
  | nil =>
    have hlast := files.get?_write directory path text
    match hwrite : files.write directory path text with
    | (after, some fault) => simp [writeAll, hwrite] at h
    | (after, none) => simpa [writeAll, hwrite] using hlast
  | cons w rest ih =>
    match hwrite : files.write directory w.1 w.2 with
    | (after, some fault) => simp [writeAll, hwrite] at h
    | (after, none) =>
      simp only [List.cons_append, writeAll, hwrite] at h ⊢
      exact ih after h

theorem growsTo_perform (v : Visit) :
    files.GrowsTo (· ∈ written directory outDir v) (perform directory outDir files v).1 := by
  have hmade := files.growsTo_makeDirectories false
    (if (target outDir v.source.id).isAbsolute then [] else directory)
    (target outDir v.source.id).steps.dropLast (· ∈ written directory outDir v)
  simp only [perform]
  split
  · next after fault heq => simpa [heq] using hmade
  · next after heq =>
    rw [heq] at hmade
    exact hmade.trans (growsTo_writeAll directory after _)

theorem get?_perform {v : Visit} (h : (perform directory outDir files v).2 = none) :
    (perform directory outDir files v).1.get? (codeAt directory outDir v.source.id) =
      some (.file (.text (content outDir v))) := by
  simp only [perform] at h ⊢
  split at h
  · simp at h
  · next after heq =>
    obtain ⟨maps, _, hwritings⟩ := writings_eq outDir v
    simp only [hwritings] at h ⊢
    exact get?_writeAll directory after h

end locations

end Placement

open Placement (codeAt mapAt written content growsTo_perform get?_perform mem_written)

namespace Survey

variable {t : Transformer} {directory : Location} {action : Action} {files : Tree}

theorem of_cons_eq {s : Source} {rest : List Source}
    (h : (of t directory action files (s :: rest)).failure = none) :
    ∃ v after, v.source = s ∧ action.perform files v = (after, none) ∧
      (of t directory action after rest).failure = none ∧
      (of t directory action files (s :: rest)).visits =
        v :: (of t directory action after rest).visits ∧
      (of t directory action files (s :: rest)).files =
        (of t directory action after rest).files := by
  cases hread : files.read directory s.path with
  | error fault => simp [of, hread] at h
  | ok text =>
    cases ht : t.transform ⟨s.id, text⟩ with
    | error e => simp [of, hread, ht] at h
    | ok result =>
      rcases hperform : action.perform files ⟨s, text, result⟩ with ⟨after, _ | fault⟩
      · simp only [of, hread, ht, hperform] at h ⊢
        exact ⟨⟨s, text, result⟩, after, rfl, hperform, h, rfl, rfl⟩
      · simp [of, hread, ht, hperform] at h

variable {outDir : Path} (hwrites : action.perform = Placement.perform directory outDir)

include hwrites

theorem growsTo_of (sources : List Source) :
    files.GrowsTo
      (fun l => ∃ s ∈ sources, l = codeAt directory outDir s.id ∨ l = mapAt directory outDir s.id)
      (of t directory action files sources).files := by
  induction sources generalizing files with
  | nil => exact .refl _ files
  | cons s rest ih =>
    cases hread : files.read directory s.path with
    | error fault =>
      simp only [of, hread]
      exact .refl _ files
    | ok text =>
      cases ht : t.transform ⟨s.id, text⟩ with
      | error e =>
        simp only [of, hread, ht]
        exact .refl _ files
      | ok result =>
        have hplaces : ∀ l ∈ written directory outDir ⟨s, text, result⟩, ∃ s' ∈ s :: rest,
            l = codeAt directory outDir s'.id ∨ l = mapAt directory outDir s'.id := by
          intro l hl
          have hat := mem_written directory outDir hl
          exact ⟨s, List.mem_cons_self, hat⟩
        have hfirst := (growsTo_perform directory outDir files ⟨s, text, result⟩).mono hplaces
        rw [← hwrites] at hfirst
        rcases hperform : action.perform files ⟨s, text, result⟩ with ⟨after, _ | fault⟩
        · rw [hperform] at hfirst
          simp only [of, hread, ht, hperform]
          refine hfirst.trans (ih.mono ?_)
          rintro l ⟨s', hs', hl⟩
          exact ⟨s', List.mem_cons_of_mem _ hs', hl⟩
        · rw [hperform] at hfirst
          simp only [of, hread, ht, hperform]
          exact hfirst

theorem growsTo_of_visits {sources : List Source}
    (h : (of t directory action files sources).failure = none) :
    files.GrowsTo
      (fun l => ∃ v ∈ (of t directory action files sources).visits, l ∈ written directory outDir v)
      (of t directory action files sources).files := by
  induction sources generalizing files with
  | nil => exact .refl _ files
  | cons s rest ih =>
    obtain ⟨v, after, -, hperform, hrest, hvisits, hfiles⟩ := of_cons_eq h
    rw [hvisits, hfiles]
    have hfirst := growsTo_perform directory outDir files v
    rw [← hwrites, hperform] at hfirst
    refine (hfirst.mono fun l hl => ⟨v, List.mem_cons_self, hl⟩).trans ((ih hrest).mono ?_)
    rintro l ⟨u, hu, hl⟩
    exact ⟨u, List.mem_cons_of_mem _ hu, hl⟩

theorem get?_of {sources : List Source}
    (h : (of t directory action files sources).failure = none) {before later : List Visit}
    {v : Visit} (hvisits : (of t directory action files sources).visits = before ++ v :: later) :
    (of t directory action files sources).files.get? (codeAt directory outDir v.source.id) =
        some (.file (.text (content outDir v))) ∨
      ((∃ u ∈ later, codeAt directory outDir v.source.id ∈ written directory outDir u) ∧
        ∃ text, (of t directory action files sources).files.get?
          (codeAt directory outDir v.source.id) = some (.file (.text text))) := by
  induction sources generalizing files before with
  | nil => simp [of] at hvisits
  | cons s rest ih =>
    obtain ⟨u, after, -, hperform, hrest, hcons, hfiles⟩ := of_cons_eq h
    rw [hcons] at hvisits
    rw [hfiles]
    cases before with
    | cons b bs => exact ih hrest (List.cons.inj hvisits).2
    | nil =>
      -- its text stands there after its own step; the rest only grows the tree
      obtain ⟨rfl, hlater⟩ := List.cons.inj hvisits
      rw [hwrites] at hperform
      have hwritten := get?_perform directory outDir files (v := u) (by rw [hperform])
      rw [hperform] at hwritten
      have hgrows := growsTo_of_visits hwrites hrest
      rw [hlater] at hgrows
      exact hgrows.get?_text hwritten

end Survey

end Outdent
