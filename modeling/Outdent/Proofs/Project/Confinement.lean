import Outdent.Proofs.Project.Processing
import Outdent.Proofs.Project.Writing
import Outdent.Run
/-! # Where a rewriting writes

A rewriting with an output directory changes no file but those at the places of its sources and of
their maps. A place is below the output directory unless the identifier leads upwards out of it, and
nothing keeps an identifier from that. -/
namespace Outdent

open Outdent.CommandLine (TransformRequest)
open Outdent.Files (Content IsBelow Location Path Route Tree resolve)

namespace Placement

/-- Whether an identifier with a last name places its source below the output directory. Where its
names lead upwards, they have to come back the same way. -/
def StaysBelow (outDir : Location) (id : String) : Prop :=
  let route := Route.along {} (Path.ofString id).names
  (Path.ofString id).isAbsolute = true ∨
    IsBelow (outDir.drop (outDir.length - route.up)) route.down

instance (outDir : Location) (id : String) : Decidable (StaysBelow outDir id) :=
  inferInstanceAs (Decidable (_ ∨ _))

theorem place_of_isAbsolute {id name : String} (habsolute : (Path.ofString id).isAbsolute = true)
    (h : (place id).fileName? = some name) : place id = ⟨false, [name]⟩ := by
  cases hlast : (Path.ofString id).fileName? with
  | none => simp [place, habsolute, hlast] at h
  | some last =>
    obtain ⟨-, hproper, hup⟩ := Path.steps_of_fileName? hlast
    have hplace : place id = ⟨false, [last]⟩ := by simp [place, habsolute, hlast]
    rw [hplace] at h ⊢
    simpa [Path.fileName?, Path.steps, hproper, hup] using h

theorem isBelow_resolved_place_iff {id name : String} (h : (place id).fileName? = some name)
    (outDir : Location) : IsBelow outDir ((place id).resolved outDir) ↔ StaysBelow outDir id := by
  by_cases habsolute : (Path.ofString id).isAbsolute = true
  · obtain ⟨-, hproper, hup⟩ := Path.steps_of_fileName? h
    simp [place_of_isAbsolute habsolute h, Path.resolved, resolve, hproper, hup, StaysBelow,
      habsolute, Files.isBelow_append_singleton_iff]
  · have hplace : place id = Path.ofString id := by simp [place, habsolute]
    rw [hplace, Path.resolved, if_neg habsolute, Route.resolve_eq_endFrom,
      Route.isBelow_endFrom_iff]
    simp [StaysBelow, habsolute]

theorem isBelow_codeAt_iff {id name : String} (h : (place id).fileName? = some name)
    (directory : Location) (outDir : Path) :
    IsBelow (outDir.resolved directory) (codeAt directory outDir id) ↔
      StaysBelow (outDir.resolved directory) id := by
  rw [codeAt_eq]
  exact isBelow_resolved_place_iff h _

theorem isBelow_mapAt_iff {id name : String} (h : (place id).fileName? = some name)
    (directory : Location) (outDir : Path) :
    IsBelow (outDir.resolved directory) (mapAt directory outDir id) ↔
      StaysBelow (outDir.resolved directory) id := by
  obtain ⟨parent, hcode, hmap⟩ := exists_parent directory outDir h
  rw [← isBelow_codeAt_iff h, hcode, hmap, Files.isBelow_append_singleton_iff,
    Files.isBelow_append_singleton_iff]

theorem staysBelow_of_no_parent {id name : String} (h : (place id).fileName? = some name)
    (hup : ".." ∉ (Path.ofString id).names) (outDir : Location) : StaysBelow outDir id := by
  by_cases habsolute : (Path.ofString id).isAbsolute = true
  · exact .inl habsolute
  · refine .inr ?_
    have hsteps : (Path.ofString id).steps ≠ [] := by
      intro hnil
      simp [place, habsolute, Path.fileName?, hnil] at h
    simp only [Route.along_of_no_parent {} hup, Nat.sub_zero, List.drop_length, List.nil_append]
    exact ⟨List.nil_prefix, fun hnil => hsteps hnil.symm⟩

end Placement

open Placement (StaysBelow codeAt mapAt place isBelow_codeAt_iff isBelow_mapAt_iff
  staysBelow_of_no_parent)

namespace Project

variable {p : Project} {r : TransformRequest}

theorem rewritten_cases (p : Project) (r : TransformRequest) (noted : Bool) :
    (∃ notes f, p.rewritten r noted = ⟨[], ⟨[], notes, p.files, some f⟩⟩) ∨
      ∃ t found notes, p.sources t.filter r.files = .ok found ∧
        p.rewritten r noted =
          ⟨found, { Survey.of t p.directory ((Delivery.of r found).action p.directory) p.files found
            with notes := notes }⟩ :=
  p.survey_cases _ _

theorem files_transform (shown : Presentation) (noted : Bool) :
    (p.transform shown r noted).files = (p.rewritten r noted).survey.files := by
  cases h : (p.rewritten r noted).survey.failure <;> simp [transform, Survey.output, h]

theorem status_transform_eq_zero_iff (shown : Presentation) (noted : Bool) :
    (p.transform shown r noted).status = 0 ↔ (p.rewritten r noted).survey.failure = none := by
  cases h : (p.rewritten r noted).survey.failure <;> simp [transform, Survey.output, h]

theorem visited_of_transform {shown : Presentation} {noted : Bool}
    (h : (p.transform shown r noted).status = 0) :
    (p.rewritten r noted).survey.visits.map (·.source) = (p.rewritten r noted).sources := by
  rw [status_transform_eq_zero_iff] at h
  rcases p.rewritten_cases r noted with ⟨notes, f, heq⟩ | ⟨t, found, notes, -, heq⟩
  · simp [heq] at h
  · rw [heq] at h ⊢
    exact Survey.sources_of_no_failure h

variable {outDir : String} (hout : r.outDir = some outDir)

include hout

theorem delivery_action (hdiff : r.showsDiff = false) (sources : List Source) :
    ((Delivery.of r sources).action p.directory).perform =
      Placement.perform p.directory (.ofString outDir) := by
  simp only [Delivery.of, hdiff, hout]
  rfl

theorem growsTo_transform (shown : Presentation) (noted : Bool) :
    p.files.GrowsTo
      (fun l => ∃ s ∈ (p.rewritten r noted).sources,
        l = codeAt p.directory (.ofString outDir) s.id ∨
          l = mapAt p.directory (.ofString outDir) s.id)
      (p.transform shown r noted).files := by
  rw [files_transform]
  rcases p.rewritten_cases r noted with ⟨notes, f, h⟩ | ⟨t, found, notes, -, h⟩
  · rw [h]
    exact .refl _ _
  · rw [h]
    by_cases hdiff : r.showsDiff = true
    · have hkeeps : ((Delivery.of r found).action p.directory).KeepsFiles := by
        intro files v
        simp [Delivery.of, hdiff, Delivery.action]
      simp only [Survey.files_of hkeeps]
      exact .refl _ _
    · exact Survey.growsTo_of (delivery_action hout (by simpa using hdiff) found) found

theorem exists_text_of_transform (hdiff : r.showsDiff = false) {shown : Presentation} {noted : Bool}
    (h : (p.transform shown r noted).status = 0) {s : Source}
    (hs : s ∈ (p.rewritten r noted).sources) :
    ∃ text, (p.transform shown r noted).files.get? (codeAt p.directory (.ofString outDir) s.id) =
      some (.file (.text text)) := by
  rw [status_transform_eq_zero_iff] at h
  rw [files_transform]
  rcases p.rewritten_cases r noted with ⟨notes, f, heq⟩ | ⟨t, found, notes, -, heq⟩
  · simp [heq] at h
  · rw [heq] at h hs ⊢
    have hvisited := Survey.sources_of_no_failure h
    rw [← hvisited, List.mem_map] at hs
    obtain ⟨v, hv, rfl⟩ := hs
    obtain ⟨before, later, hsplit⟩ := List.append_of_mem hv
    rcases Survey.get?_of (delivery_action hout hdiff found) h hsplit with htext | ⟨_, htext⟩
    · exact ⟨_, htext⟩
    · exact htext

/-- The files that a rewriting is listed to have changed stand at the places of its sources and
their maps. -/
theorem changedSince_transform (shown : Presentation) (noted : Bool) {f : Location × Content}
    (hf : f ∈ (p.transform shown r noted).files.changedSince p.files)
    (hget : (p.transform shown r noted).files.get? f.1 = some (.file f.2)) :
    ∃ s ∈ (p.rewritten r noted).sources, f.1 = codeAt p.directory (.ofString outDir) s.id ∨
      f.1 = mapAt p.directory (.ofString outDir) s.id :=
  (growsTo_transform hout shown noted).place_of_mem_changedSince hf hget

/-- A rewriting with an output directory makes directories and changes files at the places of its
sources and their maps, nothing else. These places are below the output directory exactly if the
identifier stays below, as one without two dots does. If all do, no other file is changed. Where the
rewriting does not fail, there is a text at the place of every source, below or not. -/
theorem transform_changes (shown : Presentation) (noted : Bool) :
    let d := (Path.ofString outDir).resolved p.directory
    let sources := (p.rewritten r noted).sources
    let after := (p.transform shown r noted).files
    let code (s : Source) := codeAt p.directory (.ofString outDir) s.id
    let map (s : Source) := mapAt p.directory (.ofString outDir) s.id
    (∀ l, after.get? l ≠ p.files.get? l →
      (p.files.get? l = none ∧ after.get? l = some .directory) ∨
        ((∃ s ∈ sources, l = code s ∨ l = map s) ∧
          ∃ text, after.get? l = some (.file (.text text)))) ∧
    (∀ s ∈ sources, (place s.id).fileName?.isSome →
      (IsBelow d (code s) ↔ StaysBelow d s.id) ∧ (IsBelow d (map s) ↔ StaysBelow d s.id) ∧
        (".." ∉ (Path.ofString s.id).names → StaysBelow d s.id)) ∧
    ((∀ s ∈ sources, (place s.id).fileName?.isSome ∧ StaysBelow d s.id) →
      ∀ l content, after.get? l = some (.file content) → p.files.get? l ≠ some (.file content) →
        IsBelow d l) ∧
    ((p.transform shown r noted).status = 0 → r.showsDiff = false →
      ∀ s ∈ sources, ∃ text, after.get? (code s) = some (.file (.text text))) := by
  intro d sources after code map
  have hgrows := growsTo_transform (p := p) hout shown noted
  have hplaces : ∀ s ∈ sources, (place s.id).fileName?.isSome →
      (IsBelow d (code s) ↔ StaysBelow d s.id) ∧ (IsBelow d (map s) ↔ StaysBelow d s.id) ∧
        (".." ∉ (Path.ofString s.id).names → StaysBelow d s.id) := by
    intro s _ hname
    obtain ⟨name, hname⟩ := Option.isSome_iff_exists.mp hname
    exact ⟨isBelow_codeAt_iff hname _ _, isBelow_mapAt_iff hname _ _,
      fun hup => staysBelow_of_no_parent hname hup d⟩
  refine ⟨?_, hplaces, ?_, ?_⟩
  · intro l hchanged
    rcases hgrows l with hsame | hmade | ⟨hplace, -, htext⟩
    · exact absurd hsame hchanged
    · exact .inl hmade
    · exact .inr ⟨hplace, htext⟩
  · intro hstays l content hcontent hnew
    obtain ⟨s, hs, hl⟩ := hgrows.place_of_changed hcontent hnew
    obtain ⟨hcode, hmap, -⟩ := hplaces s hs (hstays s hs).1
    rcases hl with rfl | rfl
    · exact hcode.mpr (hstays s hs).2
    · exact hmap.mpr (hstays s hs).2
  · intro hdone hdiff s hs
    exact exists_text_of_transform hout hdiff hdone hs

omit hout

def twins : Project where
  files := ⟨[(["x.js"], .file (.text "1;\n".toList)), (["p"], .directory),
    (["p", "x.js"], .file (.text "2;\n".toList))]⟩
  directory := ["p"]
  root := .ofSteps ["p"]

def twinsRequest : TransformRequest := { files := ["../x.js"], outDir := some "out" }

theorem sources_twins (filter : Filter) : twins.sources filter twinsRequest.files =
    .ok ([⟨⟨true, ["p", "..", "x.js"]⟩, "../x.js"⟩].filter fun s => filter.isEligible s.id) :=
  twins.sources_of_ordered twinsRequest.files rfl (by decide +kernel) filter

theorem rewritten_twins : (twins.rewritten twinsRequest false).sources =
    [⟨⟨true, ["p", "..", "x.js"]⟩, "../x.js"⟩] := by
  simp only [rewritten, survey, sources_twins]
  decide +kernel

theorem place_twins : ∃ s ∈ (twins.rewritten twinsRequest false).sources,
    ¬ IsBelow ["p", "out"] (codeAt twins.directory (.ofString "out") s.id) := by
  refine ⟨_, by rw [rewritten_twins]; exact List.mem_singleton_self _, ?_⟩
  have hout : twinsRequest.outDir = some "out" := rfl
  have hplaces := (transform_changes (p := twins) hout ⟨false, []⟩ false).2.1 _
    (by rw [rewritten_twins]; exact List.mem_singleton_self _) (by decide +kernel)
  exact fun hbelow => absurd (hplaces.1.mp hbelow) (by decide +kernel)

theorem transform_twins : (twins.transform ⟨false, []⟩ twinsRequest false).status = 0 ∧
    ¬ ∀ l content,
      (twins.transform ⟨false, []⟩ twinsRequest false).files.get? l = some (.file content) →
        twins.files.get? l ≠ some (.file content) →
          IsBelow ((Path.ofString "out").resolved twins.directory) l := by
  have hstatus : (twins.transform ⟨false, []⟩ twinsRequest false).status = 0 := by
    simp only [transform, rewritten, survey, sources_twins]
    decide +kernel
  have hwritten : (twins.transform ⟨false, []⟩ twinsRequest false).files.get? ["p", "x.js"] =
      some (.file (.text "1;\n".toList)) := by
    simp only [transform, rewritten, survey, sources_twins]
    decide +kernel
  refine ⟨hstatus, fun hall => ?_⟩
  exact absurd (hall _ _ hwritten (by decide +kernel)) (by decide +kernel)

end Project

end Outdent
