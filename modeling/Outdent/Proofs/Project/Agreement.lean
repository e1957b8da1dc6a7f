import Outdent.Proofs.Project.Processing
import Outdent.Run
/-! # The commands agree

A check, a listing and a rewriting that only tells what it does go through the same sources of a
project. They fail together and with the same failure, and where they do not fail they tell of the
same listing. -/
namespace Outdent

open Outdent.CommandLine (Format TransformRequest)
open Outdent.Files (Tree)
open Outdent.Glob (bytes)

namespace Output

structure FailsWith (o : Output) (isColored : Bool) (f : Failure) : Prop where
  status : o.status = 2
  errors : ∃ noted, o.errors = noted ++ f.headline isColored ++ "\n"
  details : o.details = f.details

structure Concludes (o : Output) (c : Conclusion) : Prop where
  status : o.status = if c.isPending then 1 else 0
  output : o.output = c.output
  errors : ∃ noted, o.errors = noted ++ c.remark
  details : o.details = ""

end Output

namespace Survey

variable {s : Survey} (shown : Presentation) (kept : String) (c : Conclusion)

theorem output_failsWith {f : Failure} (h : s.failure = some f) :
    (s.output shown kept c).FailsWith shown.isColored f := by
  simp only [output, h]
  exact ⟨rfl, ⟨_, rfl⟩, rfl⟩

theorem output_concludes (h : s.failure = none) : (s.output shown kept c).Concludes c := by
  simp only [output, h]
  exact ⟨rfl, rfl, ⟨_, rfl⟩, rfl⟩

theorem output_withFiles (other : Tree) :
    ({ s with files := other } : Survey).output shown kept c =
      { s.output shown kept c with files := other } := by
  cases h : s.failure <;> simp only [output, h]

end Survey

namespace Listing

theorem ofVisits_withoutMap (visits : List Visit) :
    ofVisits (visits.map Visit.withoutMap) = ofVisits visits := by
  simp only [ofVisits, List.map_map, Listing.mk.injEq, List.map_inj_left, Function.comp_apply,
    Visit.withoutMap, Option.map_map]
  exact fun _ _ => rfl

theorem check_ofVisits (visits : List Visit) :
    Check.ofVisits visits = ⟨(ofVisits visits).rewritten, (ofVisits visits).entries.length⟩ := by
  rw [rewritten_ofVisits]
  simp [ofVisits, Check.ofVisits]

theorem tally_ofVisits (visits : List Visit) :
    Tally.ofVisits visits =
      ⟨(ofVisits visits).rewritten.length, (ofVisits visits).entries.length⟩ := by
  rw [rewritten_ofVisits, ← Tally.rewritten_ofVisits]
  simp [Tally.ofVisits, ofVisits]

def tallied (l : Listing) : String :=
  s!"{l.rewritten.length} of {l.entries.length} file(s) rewritten\n"

theorem length_rewritten_pos_iff (l : Listing) :
    0 < l.rewritten.length ↔ ∃ e ∈ l.entries, e.2.isSome := by
  simp only [List.length_pos_iff, ne_eq, rewritten, List.filterMap_eq_nil_iff,
    Option.map_eq_none_iff, Option.isSome_iff_ne_none]
  push Not
  rfl

end Listing

namespace Survey.Agrees

variable {s u : Survey} (h : s.Agrees u)

include h

theorem listing_eq : Listing.ofVisits s.visits = Listing.ofVisits u.visits := by
  rw [← Listing.ofVisits_withoutMap s.visits, h.visits, Listing.ofVisits_withoutMap]

end Survey.Agrees

namespace Delivery

theorem remark_of {r : TransformRequest} (hfiles : r.files = []) (hout : r.outDir = none)
    (sources : List Source) (rewritten total : Nat) :
    (of r sources).remark rewritten total = s!"{rewritten} of {total} file(s) rewritten\n" := by
  by_cases hdiff : r.showsDiff = true
  · simp [of, hdiff, remark]
  · simp [of, hdiff, hfiles, hout, remark]

end Delivery

namespace Project

variable {p : Project} {r : TransformRequest}

theorem inspected_agrees (hfiles : r.files = []) (hout : r.outDir = none) (noted : Bool) :
    (p.rewritten r noted).sources = p.inspected.sources ∧
      (p.rewritten r noted).survey.Agrees p.inspected.survey :=
  p.survey_agrees hfiles (fun sources => Delivery.keepsFiles_action hout sources p.directory)
    (fun _ => Action.keepsFiles_default)

theorem inspected_in_order : p.inspected.survey.visits.map (·.source) <+: p.inspected.sources ∧
    p.inspected.sources.Pairwise fun a b => bytes a.id.toList ≤ bytes b.id.toList := by
  rcases p.survey_cases {} (fun _ => {}) with ⟨notes, f, h⟩ | ⟨t, found, notes, hfound, h⟩
  · simp [inspected, h]
  · rw [inspected, h]
    exact ⟨Survey.sources_prefix _ _ _ _ _, pairwise_bytes_sources hfound⟩

theorem nodup_ids_of_walk {found : List Source} (h : p.walk = .ok found)
    (hids : (found.map (·.id)).Nodup) : (p.inspected.sources.map (·.id)).Nodup := by
  match ht : p.transformer {} with
  | (notes, .error e) => simp [inspected, survey, ht]
  | (notes, .ok transformer) =>
    have hfilter : ((found.filter fun s => transformer.filter.isEligible s.id).map (·.id)).Nodup :=
      hids.sublist (List.filter_sublist.map _)
    simpa [inspected, survey, ht, sources, h, Except.map] using
      ((perm_inOrder _).map Source.id).nodup_iff.mpr hfilter

theorem sources_of_inspected (h : p.inspected.survey.failure = none) :
    p.inspected.survey.visits.map (·.source) = p.inspected.sources := by
  rcases p.survey_cases {} (fun _ => {}) with ⟨notes, f, heq⟩ | ⟨t, found, notes, hfound, heq⟩
  · simp [inspected, heq] at h
  · rw [inspected, heq] at h ⊢
    exact Survey.sources_of_no_failure h

variable (c l t : Presentation) (format : Format) (noted : Bool)

theorem transform_concludes (hfiles : r.files = []) (hout : r.outDir = none)
    (h : (p.rewritten r noted).survey.failure = none) :
    let listing := Listing.ofVisits (p.rewritten r noted).survey.visits
    ∃ printed, (p.transform t r noted).Concludes
      { output := printed, remark := listing.tallied } := by
  intro listing
  refine ⟨(p.transform t r noted).output, ?_, rfl, ?_, ?_⟩
  · simp [transform, Survey.output, h]
  · simp only [transform, Survey.output, h, Delivery.remark_of hfiles hout, Listing.tally_ofVisits,
      Listing.tallied]
    exact ⟨_, rfl⟩
  · simp [transform, Survey.output, h]

/-- The commands fail with the same failure, or tell of one listing of the sources. -/
theorem outcome_agrees (hfiles : r.files = []) (hout : r.outDir = none) :
    (∃ f, (p.check c).FailsWith c.isColored f ∧ (p.list l format).FailsWith l.isColored f ∧
      (p.transform t r noted).FailsWith t.isColored f) ∨
    ∃ listing : Listing, listing.entries.map (·.1) = p.inspected.sources.map (·.id) ∧
      (p.check c).Concludes
        (Check.conclusion c.isColored ⟨listing.rewritten, listing.entries.length⟩) ∧
      (p.list l format).Concludes (listing.conclusion l.isColored format) ∧
      ∃ printed, (p.transform t r noted).Concludes
        { output := printed, remark := listing.tallied } := by
  obtain ⟨hsources, hagrees⟩ := inspected_agrees (p := p) hfiles hout noted
  cases hfailure : p.inspected.survey.failure with
  | some f =>
    refine .inl ⟨f, Survey.output_failsWith _ _ _ hfailure, Survey.output_failsWith _ _ _ hfailure,
      Survey.output_failsWith _ _ _ ?_⟩
    rw [hagrees.failure, hfailure]
  | none =>
    refine .inr ⟨.ofVisits p.inspected.survey.visits, ?_, ?_, ?_, ?_⟩
    · simp [← sources_of_inspected hfailure, Listing.ofVisits]
    · rw [← Listing.check_ofVisits]
      exact Survey.output_concludes _ _ _ hfailure
    · exact Survey.output_concludes _ _ _ hfailure
    · rw [← hagrees.listing_eq]
      exact transform_concludes t noted hfiles hout (hagrees.failure.trans hfailure)

theorem output_sameEntries (hout : r.outDir = none) {other : Tree}
    (h : p.files.SameEntries other) (hids : (p.inspected.sources.map (·.id)).Nodup)
    (hfiles : r.files = []) :
    let q : Project := { p with files := other }
    q.check c = { p.check c with files := other } ∧
      q.list l format = { p.list l format with files := other } ∧
      q.transform t r noted = { p.transform t r noted with files := other } := by
  intro q
  have hinspected : q.inspected =
      ⟨p.inspected.sources, { p.inspected.survey with files := other }⟩ :=
    survey_sameEntries h (fun _ => Action.keepsFiles_default) hids
  have hrewritten : q.rewritten r noted =
      ⟨(p.rewritten r noted).sources, { (p.rewritten r noted).survey with files := other }⟩ := by
    refine survey_sameEntries h (fun sources => Delivery.keepsFiles_action hout sources _) ?_
    exact (inspected_agrees hfiles hout noted).1 ▸ hids
  refine ⟨?_, ?_, ?_⟩
  · simp only [check, hinspected, Survey.output_withFiles]
  · simp only [list, hinspected, Survey.output_withFiles]
  · simp only [transform, hrewritten, Survey.output_withFiles]

/-- A check, a listing and a rewriting without output directory agree on every project. They go
through the same sources in the order of the bytes of their identifiers. They fail alike, or tell
of one listing: a check has something pending exactly if the listing has a rewritten source, which
is so exactly if the rewriting counts one. Where the identifiers are different, none of it depends
on the order in which the tree lists its entries. -/
theorem commands_agree (p : Project) {r : TransformRequest} (hfiles : r.files = [])
    (hout : r.outDir = none) (noted : Bool) (format : Format) (c l t : Presentation) :
    ((p.rewritten r noted).sources = p.inspected.sources ∧
      (p.rewritten r noted).survey.visits.map (·.source) =
        p.inspected.survey.visits.map (·.source) ∧
      p.inspected.survey.visits.map (·.source) <+: p.inspected.sources ∧
      p.inspected.sources.Pairwise fun a b => bytes a.id.toList ≤ bytes b.id.toList) ∧
    ((∃ f, (p.check c).FailsWith c.isColored f ∧ (p.list l format).FailsWith l.isColored f ∧
        (p.transform t r noted).FailsWith t.isColored f) ∨
      ∃ listing : Listing, listing.entries.map (·.1) = p.inspected.sources.map (·.id) ∧
        (p.check c).Concludes
          (Check.conclusion c.isColored ⟨listing.rewritten, listing.entries.length⟩) ∧
        (p.list l format).Concludes (listing.conclusion l.isColored format) ∧
        (∃ printed, (p.transform t r noted).Concludes
          { output := printed, remark := listing.tallied }) ∧
        ((p.check c).status = 1 ↔ ∃ e ∈ listing.entries, e.2.isSome) ∧
        ((p.check c).status = 1 ↔ 0 < listing.rewritten.length)) ∧
    ∀ other, p.files.SameEntries other → (p.inspected.sources.map (·.id)).Nodup →
      let q : Project := { p with files := other }
      q.check c = { p.check c with files := other } ∧
        q.list l format = { p.list l format with files := other } ∧
        q.transform t r noted = { p.transform t r noted with files := other } := by
  obtain ⟨hsources, hagrees⟩ := inspected_agrees (p := p) hfiles hout noted
  refine ⟨⟨hsources, hagrees.sources_eq, inspected_in_order⟩, ?_, ?_⟩
  · rcases outcome_agrees (p := p) c l t format noted hfiles hout with
      hfails | ⟨listing, hids, hcheck, hlist, htransform⟩
    · exact .inl hfails
    · have hstatus : (p.check c).status = 1 ↔ 0 < listing.rewritten.length := by
        rw [hcheck.status, Check.isPending_conclusion]
        cases hpending : listing.rewritten <;> simp
      exact .inr ⟨listing, hids, hcheck, hlist, htransform,
        hstatus.trans listing.length_rewritten_pos_iff, hstatus⟩
  · intro other hother hdistinct
    exact output_sameEntries c l t format noted hout hother hdistinct hfiles

def twoSources : Project where
  files := ⟨[(["p"], .directory), (["p", "b.js"], .file (.text "b;".toList)),
    (["p", "a.js"], .file (.text "dedent` a`;".toList))]⟩
  directory := ["p"]
  root := .ofSteps ["p"]

def turned : Tree := ⟨twoSources.files.entries.reverse⟩

theorem walk_twoSources : twoSources.walk =
    .ok [walked ["p", "b.js"] ["b.js"], walked ["p", "a.js"] ["a.js"]] := by decide +kernel

theorem sources_twoSources (filter : Filter) : twoSources.sources filter [] =
    .ok ([walked ["p", "a.js"] ["a.js"], walked ["p", "b.js"] ["b.js"]].filter
      fun s => filter.isEligible s.id) :=
  sources_of_walk walk_twoSources (by decide +kernel) (by decide +kernel) (by decide +kernel) filter

theorem commands_turned :
    (twoSources.check ⟨false, []⟩).status = 1 ∧
    (∃ listing : Listing, listing.entries.map (·.1) = twoSources.inspected.sources.map (·.id) ∧
      (twoSources.list ⟨false, []⟩ .text).Concludes (listing.conclusion false .text) ∧
      0 < listing.rewritten.length) ∧
    ({ twoSources with files := turned } : Project).check ⟨false, []⟩ =
      { twoSources.check ⟨false, []⟩ with files := turned } ∧
    ({ twoSources with files := turned } : Project).list ⟨false, []⟩ .text =
      { twoSources.list ⟨false, []⟩ .text with files := turned } ∧
    ({ twoSources with files := turned } : Project).transform ⟨false, []⟩ { emitsMap := true }
        false =
      { twoSources.transform ⟨false, []⟩ { emitsMap := true } false with files := turned } := by
  have hother : twoSources.files.SameEntries turned :=
    Tree.sameEntries_of_perm (List.reverse_perm _).symm (by decide +kernel)
  have hids := nodup_ids_of_walk walk_twoSources (by decide +kernel)
  have hstatus : (twoSources.check ⟨false, []⟩).status = 1 := by
    simp only [check, inspected, survey, sources_twoSources]
    decide +kernel
  have hagree := commands_agree twoSources (r := { emitsMap := true }) rfl rfl false .text
    ⟨false, []⟩ ⟨false, []⟩ ⟨false, []⟩
  refine ⟨hstatus, ?_, hagree.2.2 turned hother hids⟩
  rcases hagree.2.1 with ⟨f, hfails, -⟩ | ⟨listing, hentries, -, hlist, -, -, hcount⟩
  · rw [hfails.status] at hstatus
    contradiction
  · exact ⟨listing, hentries, hlist, hcount.mp hstatus⟩

end Project

end Outdent
