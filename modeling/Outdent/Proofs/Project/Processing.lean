import Mathlib.Data.List.Nodup
import Outdent.Project.Rewriting
import Outdent.Proofs.Files.Arrangement
import Outdent.Proofs.Text.ByteOrder
/-! # Going through the same sources

How position maps are asked for has no influence on which sources are found, which of them are
rewritten, with which text and counts, and where the work fails. Nor has the order in which a tree
lists its entries, as long as no two sources go by the same identifier. -/
namespace Outdent

open Outdent.Files (Location Tree)
open Outdent.Glob (bytes)

def Rewritten.withoutMap (r : Rewritten) : Rewritten := { r with map := none }

theorem Document.rewrite_agrees (d : Document) (a b : Option Resolution) :
    (∃ fault, d.rewrite a = .error fault ∧ d.rewrite b = .error fault) ∨
      ∃ r s, d.rewrite a = .ok r ∧ d.rewrite b = .ok s ∧
        r.map Rewritten.withoutMap = s.map Rewritten.withoutMap := by
  cases hparse : d.parse with
  | error fault => exact .inl ⟨fault, by simp [rewrite, hparse, bind, Except.bind]⟩
  | ok m =>
    cases hmatches : (Marker.Stats.ofModule m).hasMatches with
    | false =>
      exact .inr ⟨none, none, by
        simp [rewrite, hparse, bind, Except.bind, hmatches, pure, Except.pure]⟩
    | true =>
      cases hcut : Edit.cut d.text (Marker.edits m) with
      | error fault =>
        exact .inl ⟨.edit d.id fault, by
          simp [rewrite, hparse, bind, Except.bind, hmatches, Edited.ofEdits, hcut, throw,
            throwThe, MonadExceptOf.throw]⟩
      | ok ps =>
        refine .inr ?_
        simp only [rewrite, hparse, bind, Except.bind, hmatches, Edited.ofEdits, hcut, pure,
          Except.pure, if_true]
        exact ⟨_, _, rfl, rfl, rfl⟩

theorem Transformer.transform_agrees {t u : Transformer} (h : t.filter = u.filter) (d : Document) :
    (∃ fault, t.transform d = .error fault ∧ u.transform d = .error fault) ∨
      ∃ r s, t.transform d = .ok r ∧ u.transform d = .ok s ∧
        r.map Rewritten.withoutMap = s.map Rewritten.withoutMap := by
  by_cases heligible : u.filter.isEligible d.id = true
  · simpa only [transform, h, heligible, if_true] using
      d.rewrite_agrees t.options.positionMap u.options.positionMap
  · exact .inr ⟨none, none, by simp [transform, h, heligible], by simp [transform, heligible], rfl⟩

theorem Transformer.ofOptions_agrees (o o' : Overrides) (options : Options) :
    (∃ fault, ofOptions (o.apply options) = .error fault ∧
      ofOptions (o'.apply options) = .error fault) ∨
      ∃ t u, ofOptions (o.apply options) = .ok t ∧ ofOptions (o'.apply options) = .ok u ∧
        t.filter = u.filter := by
  simp only [ofOptions, Overrides.apply]
  cases Filter.ofPatterns options.included options.excluded with
  | error fault => exact .inl ⟨_, rfl, rfl⟩
  | ok filter => exact .inr ⟨_, _, rfl, rfl, rfl⟩

def Visit.withoutMap (v : Visit) : Visit := { v with result := v.result.map Rewritten.withoutMap }

def Action.KeepsFiles (a : Action) : Prop := ∀ files v, a.perform files v = (files, none)

namespace Survey

structure Agrees (s u : Survey) : Prop where
  visits : s.visits.map Visit.withoutMap = u.visits.map Visit.withoutMap
  failure : s.failure = u.failure

theorem of_agrees {t u : Transformer} {a b : Action} (h : t.filter = u.filter)
    (ha : a.KeepsFiles) (hb : b.KeepsFiles) (directory : Location) (files : Tree)
    (sources : List Source) :
    (of t directory a files sources).Agrees (of u directory b files sources) := by
  induction sources with
  | nil => exact ⟨rfl, rfl⟩
  | cons s rest ih =>
    cases hread : files.read directory s.path with
    | error fault => simp only [of, hread]; exact ⟨rfl, rfl⟩
    | ok text =>
      rcases Transformer.transform_agrees h ⟨s.id, text⟩ with
        ⟨fault, ht, hu⟩ | ⟨x, y, ht, hu, hxy⟩
      · simp only [of, hread, ht, hu]
        exact ⟨rfl, rfl⟩
      · simp only [of, hread, ht, hu, ha files, hb files]
        refine ⟨?_, ih.failure⟩
        simp only [List.map_cons, ih.visits, Visit.withoutMap, hxy]

theorem files_of {a : Action} (ha : a.KeepsFiles) (t : Transformer) (directory : Location)
    (files : Tree) (sources : List Source) : (of t directory a files sources).files = files := by
  induction sources with
  | nil => rfl
  | cons s rest ih =>
    cases hread : files.read directory s.path with
    | error fault => simp [of, hread]
    | ok text =>
      cases ht : t.transform ⟨s.id, text⟩ with
      | error e => simp [of, hread, ht]
      | ok result => simp [of, hread, ht, ha files, ih]

theorem of_sameEntries {a : Action} (ha : a.KeepsFiles) (t : Transformer) (directory : Location)
    {files other : Tree} (h : files.SameEntries other) (sources : List Source) :
    of t directory a other sources = { of t directory a files sources with files := other } := by
  induction sources with
  | nil => rfl
  | cons s rest ih =>
    cases hread : files.read directory s.path with
    | error fault => simp [of, hread, ← Tree.read_eq h]
    | ok text =>
      cases ht : t.transform ⟨s.id, text⟩ with
      | error e => simp [of, hread, ← Tree.read_eq h, ht]
      | ok result => simp [of, hread, ← Tree.read_eq h, ht, ha files, ha other, ih]

theorem sources_prefix (t : Transformer) (directory : Location) (action : Action) (files : Tree)
    (sources : List Source) :
    (of t directory action files sources).visits.map (·.source) <+: sources := by
  induction sources generalizing files with
  | nil => exact List.prefix_rfl
  | cons s rest ih =>
    cases hread : files.read directory s.path with
    | error fault => simp [of, hread]
    | ok text =>
      cases ht : t.transform ⟨s.id, text⟩ with
      | error e => simp [of, hread, ht]
      | ok result =>
        rcases hperform : action.perform files ⟨s, text, result⟩ with ⟨after, _ | fault⟩
        · simp only [of, hread, ht, hperform, List.map_cons, List.prefix_cons_inj]
          exact ih after
        · simp [of, hread, ht, hperform]

theorem Agrees.sources_eq {s u : Survey} (h : s.Agrees u) :
    s.visits.map (·.source) = u.visits.map (·.source) := by
  have hmap := congrArg (List.map (·.source)) h.visits
  simpa [List.map_map, Function.comp_def, Visit.withoutMap] using hmap

end Survey

theorem Action.keepsFiles_default : ({} : Action).KeepsFiles := fun _ _ => rfl

namespace Delivery

theorem keepsFiles_action {r : CommandLine.TransformRequest} (h : r.outDir = none)
    (sources : List Source) (directory : Location) :
    ((of r sources).action directory).KeepsFiles := by
  intro files v
  by_cases hdiff : r.showsDiff = true
  · simp [of, hdiff, action]
  · by_cases hsingle : (r.files.length == 1 && sources.length == 1) = true
    · simp [of, hdiff, h, hsingle, action]
    · simp [of, hdiff, h, hsingle, action]

end Delivery

namespace Project

variable (p : Project)

theorem transformer_agrees (o o' : Overrides) :
    (∃ notes fault, p.transformer o = (notes, .error fault) ∧
      p.transformer o' = (notes, .error fault)) ∨
      ∃ notes t u, p.transformer o = (notes, .ok t) ∧ p.transformer o' = (notes, .ok u) ∧
        t.filter = u.filter := by
  match hload : Configuration.load p.files p.directory p.root with
  | .error e => exact .inl ⟨[], e, by simp [transformer, hload]⟩
  | .ok none =>
    simp only [transformer, hload]
    rcases Transformer.ofOptions_agrees o o' {} with ⟨fault, ho, ho'⟩ | ⟨t, u, ho, ho', hfilter⟩
    · exact .inl ⟨_, fault, by rw [ho], by rw [ho']⟩
    · exact .inr ⟨_, t, u, by rw [ho], by rw [ho'], hfilter⟩
  | .ok (some c) =>
    simp only [transformer, hload]
    rcases Transformer.ofOptions_agrees o o' c.options with
      ⟨fault, ho, ho'⟩ | ⟨t, u, ho, ho', hfilter⟩
    · exact .inl ⟨_, fault, by rw [ho], by rw [ho']⟩
    · exact .inr ⟨_, t, u, by rw [ho], by rw [ho'], hfilter⟩

theorem survey_cases (r : Request) (action : List Source → Action) :
    (∃ notes f, p.survey r action = ⟨[], ⟨[], notes, p.files, some f⟩⟩) ∨
      ∃ t found notes, p.sources t.filter r.named = .ok found ∧
        p.survey r action =
          ⟨found,
            { Survey.of t p.directory (action found) p.files found with notes := notes }⟩ := by
  match ht : p.transformer r.overrides with
  | (notes, .error e) => exact .inl ⟨notes, .document e, by simp only [survey, ht]⟩
  | (notes, .ok t) =>
    cases hsources : p.sources t.filter r.named with
    | error fault => exact .inl ⟨notes, .walk fault, by simp only [survey, ht, hsources]⟩
    | ok found => exact .inr ⟨t, found, _, hsources, by simp only [survey, ht, hsources]; rfl⟩

/-- Overrides and what is done with a source have no influence on what is found in a project. -/
theorem survey_agrees {r r' : Request} (h : r.named = r'.named)
    {a b : List Source → Action} (ha : ∀ sources, (a sources).KeepsFiles)
    (hb : ∀ sources, (b sources).KeepsFiles) :
    (p.survey r a).sources = (p.survey r' b).sources ∧
      (p.survey r a).survey.Agrees (p.survey r' b).survey := by
  rcases p.transformer_agrees r.overrides r'.overrides with
    ⟨notes, fault, ht, hu⟩ | ⟨notes, t, u, ht, hu, hfilter⟩
  · simp only [survey, ht, hu, true_and]
    exact ⟨rfl, rfl⟩
  · cases hsources : p.sources u.filter r'.named with
    | error fault =>
      simp only [survey, ht, hu, hfilter, h, hsources, true_and]
      exact ⟨rfl, rfl⟩
    | ok sources =>
      simp only [survey, ht, hu, hfilter, h, hsources, true_and]
      have hof := Survey.of_agrees hfilter (ha sources) (hb sources) p.directory p.files sources
      exact ⟨hof.visits, hof.failure⟩

theorem perm_inOrder (sources : List Source) : (inOrder sources).Perm sources :=
  List.mergeSort_perm _ _

/-- Sources with different identifiers are taken in one order, whatever order they come in. -/
theorem inOrder_eq_of_perm {xs ys : List Source} (h : xs.Perm ys) (hids : (xs.map (·.id)).Nodup) :
    inOrder xs = inOrder ys := by
  refine List.Perm.eq_of_pairwise ?_ (pairwise_inOrder xs) (pairwise_inOrder ys)
    ((perm_inOrder xs).trans (h.trans (perm_inOrder ys).symm))
  intro a b ha hb hab hba
  have hax : a ∈ xs := mem_inOrder.mp ha
  have hbx : b ∈ xs := h.mem_iff.mpr (mem_inOrder.mp hb)
  exact List.inj_on_of_nodup_map hids hax hbx (le_antisymm hab hba)

theorem pairwise_bytes_inOrder (sources : List Source) :
    (inOrder sources).Pairwise fun a b => bytes a.id.toList ≤ bytes b.id.toList :=
  (pairwise_inOrder sources).imp Text.bytes_le_bytes_iff.mpr

variable {p}

theorem pairwise_bytes_sources {filter : Filter} {named : List String} {sources : List Source}
    (h : p.sources filter named = .ok sources) :
    sources.Pairwise fun a b => bytes a.id.toList ≤ bytes b.id.toList := by
  by_cases hnamed : named.isEmpty = true
  · cases hwalk : p.walk with
    | error fault => simp [Project.sources, hnamed, hwalk, Except.map] at h
    | ok all =>
      simp only [Project.sources, hnamed, hwalk, if_true, Except.map, Except.ok.injEq] at h
      exact h ▸ pairwise_bytes_inOrder _
  · simp only [Project.sources, hnamed, Bool.false_eq_true, if_false, Except.ok.injEq] at h
    exact h ▸ pairwise_bytes_inOrder _

theorem inOrder_of_pairwise {sources : List Source} (h : sources.Pairwise fun a b => a.id ≤ b.id) :
    inOrder sources = sources :=
  List.mergeSort_of_pairwise (h.imp fun hab => by simpa using hab)

theorem sources_of_ordered (p : Project) (named : List String) (hne : named.isEmpty = false)
    (h : (named.map p.named).Pairwise fun a b => a.id ≤ b.id) (filter : Filter) :
    p.sources filter named = .ok ((named.map p.named).filter fun s => filter.isEligible s.id) := by
  simp only [Project.sources, hne, Bool.false_eq_true, if_false]
  rw [inOrder_of_pairwise (h.sublist List.filter_sublist)]

theorem sources_of_walk {found ordered : List Source} (hwalk : p.walk = .ok found)
    (hperm : found.Perm ordered) (h : ordered.Pairwise fun a b => a.id ≤ b.id)
    (hids : (found.map (·.id)).Nodup) (filter : Filter) :
    p.sources filter [] = .ok (ordered.filter fun s => filter.isEligible s.id) := by
  have hnodup : ((found.filter fun s => filter.isEligible s.id).map (·.id)).Nodup :=
    hids.sublist (List.filter_sublist.map _)
  simp only [Project.sources, hwalk, List.isEmpty_nil, if_true, Except.map]
  rw [inOrder_eq_of_perm (hperm.filter _) hnodup,
    inOrder_of_pairwise (h.sublist List.filter_sublist)]

theorem sources_sameEntries {other : Tree} (h : p.files.SameEntries other) {filter : Filter}
    {named : List String}
    (hids : ∀ sources, p.sources filter named = .ok sources → (sources.map (·.id)).Nodup) :
    ({ p with files := other } : Project).sources filter named = p.sources filter named := by
  by_cases hnamed : named.isEmpty = true
  · rcases Ignore.walk_sameEntries h p.directory p.root with
      ⟨fault, hwalk, hother⟩ | ⟨found, others, hwalk, hother, hperm⟩
    · simp [Project.sources, walk, hnamed, hwalk, hother, Except.map]
    · simp only [Project.sources, walk, hnamed, hwalk, hother, Except.map, if_true,
        Except.ok.injEq, forall_eq'] at hids ⊢
      have hsources := (hperm.map fun f => walked f.1 f.2).filter fun s => filter.isEligible s.id
      refine (inOrder_eq_of_perm hsources ?_).symm
      exact ((perm_inOrder _).map _).nodup_iff.mp hids
  · simp only [Project.sources, hnamed]
    rfl

theorem transformer_sameEntries {other : Tree} (h : p.files.SameEntries other) (o : Overrides) :
    ({ p with files := other } : Project).transformer o = p.transformer o := by
  simp only [transformer, Configuration.load_eq h]

/-- A survey that does not write comes to the same in a tree that lists its entries in another
order, as long as the sources go by different identifiers. -/
theorem survey_sameEntries {other : Tree} (h : p.files.SameEntries other) {r : Request}
    {a : List Source → Action} (ha : ∀ sources, (a sources).KeepsFiles)
    (hids : ((p.survey r a).sources.map (·.id)).Nodup) :
    ({ p with files := other } : Project).survey r a =
      ⟨(p.survey r a).sources, { (p.survey r a).survey with files := other }⟩ := by
  simp only [survey, transformer_sameEntries h] at hids ⊢
  match ht : p.transformer r.overrides with
  | (notes, .error e) => rfl
  | (notes, .ok t) =>
    simp only [ht] at hids ⊢
    have hsame : ({ p with files := other } : Project).sources t.filter r.named =
        p.sources t.filter r.named := by
      refine sources_sameEntries h fun sources hsources => ?_
      simpa only [hsources] using hids
    cases hsources : p.sources t.filter r.named with
    | error fault => simp only [hsame, hsources]
    | ok sources =>
      simp only [hsame, hsources, Survey.of_sameEntries (ha sources) t p.directory h sources]
      rfl

end Project

end Outdent
