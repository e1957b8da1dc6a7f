import Mathlib.Data.List.Find
import Outdent.Proofs.Ignore.Entering
import Outdent.Proofs.Project.Agreement
import Outdent.Proofs.Project.Collision
import Outdent.Proofs.Project.Repetition
/-! # Rewriting a project again

A rewriting of a project reads the rules on its way, a configuration and the eligible files that it
comes to. If it has written at none of these places, it can be made again and changes nothing. It is
enough for that if no walk enters the output directory. If one does, the outputs are sources of the
next rewriting, which writes them once more, further down. -/
namespace Outdent

open Outdent.CommandLine (TransformRequest)
open Outdent.Files (IsBelow IsName Location Path Tree resolve_of_isName)
open Outdent.Ignore (SameRules isEntered isReached ruleFiles)
open Outdent.Placement (IsLevel written)
open Outdent.Survey (Writes)

theorem Files.prefix_or_eq_of_isBelow_append {d e m : Location} (h : IsBelow d (e ++ m)) :
    d <+: e ∨ ∃ n < m.length, 0 < n ∧ d = e ++ m.take n := by
  obtain ⟨⟨w, hw⟩, hne⟩ := h
  rcases List.append_eq_append_iff.mp hw with ⟨a, rfl, -⟩ | ⟨c, rfl, rfl⟩
  · exact .inl (List.prefix_append _ _)
  · cases c with
    | nil => exact .inl (by simp)
    | cons name c =>
      have hrest : w ≠ [] := by
        rintro rfl
        simp at hne
      refine .inr ⟨(name :: c).length, ?_, by simp, by simp⟩
      have hpos := List.length_pos_iff.mpr hrest
      rw [List.length_append]
      omega

theorem Placement.IsLevel.isBelow_of_mem_written {directory l : Location} {outDir : Path}
    {v : Visit} (h : IsLevel v.source.id) (hl : l ∈ written directory outDir v) :
    IsBelow (outDir.resolved directory) l := by
  obtain ⟨front, name, -, hway⟩ := h.exists_way_eq
  rcases Placement.mem_written directory outDir hl with rfl | rfl
  · rw [h.codeAt_eq_append, hway, ← List.append_assoc, Files.isBelow_append_singleton_iff]
    exact List.prefix_append _ _
  · rw [h.mapAt_eq_append, ← List.append_assoc, Files.isBelow_append_singleton_iff]
    exact List.prefix_append _ _

namespace Configuration

theorem isName_of_candidates : ∀ c ∈ candidates, (Path.ofString c).isAbsolute = false ∧
    (Path.ofString c).names ≠ [] ∧ ∀ n ∈ (Path.ofString c).names, IsName n := by
  decide +kernel

theorem load_again {t u : Tree} (h : t.Keeps u) (hgrounded : t.IsGrounded)
    {directory l : Location} {root : Path} (hroot : t.locate directory root = .ok l)
    (hsame : ∀ c ∈ candidates, t.SameFileAt u (l ++ (Path.ofString c).names))
    {found : Option Configuration} (hload : load t directory root = .ok found) :
    load u directory root = .ok found := by
  have hplace : ∀ c ∈ candidates,
      (root.join (.ofString c)).resolved directory = l ++ (Path.ofString c).names := by
    intro c hc
    obtain ⟨hrelative, -, hnames⟩ := isName_of_candidates c hc
    rw [Path.resolved_join, ← Tree.locate_eq_ok hroot, Path.resolved, hrelative,
      if_neg Bool.false_ne_true, resolve_of_isName hnames]
  -- a candidate earlier in the list must not have become a file
  have hfile : ∀ c ∈ candidates, u.isFile directory (root.join (.ofString c)) =
      t.isFile directory (root.join (.ofString c)) := by
    intro c hc
    obtain ⟨hrelative, hne, hnames⟩ := isName_of_candidates c hc
    refine h.isFile_eq (hplace c hc ▸ hsame c hc) fun content hget => ?_
    rw [hplace c hc] at hget
    exact ⟨_, (Tree.locate_join hroot hrelative hne).trans (hgrounded.follow hnames hget)⟩
  have hpath : path? u directory root = path? t directory root := by
    refine List.find?_congr fun path hpath => ?_
    obtain ⟨c, hc, rfl⟩ := List.mem_map.mp hpath
    exact hfile c hc
  rw [load] at hload ⊢
  rw [hpath]
  cases hfound : path? t directory root with
  | none => simpa only [hfound] using hload
  | some path =>
    obtain ⟨c, hc, rfl⟩ := List.mem_map.mp (List.mem_of_find?_eq_some hfound)
    simp only [hfound] at hload ⊢
    cases hread : t.read directory (root.join (.ofString c)) with
    | error fault => simp [hread] at hload
    | ok text =>
      rw [hread] at hload
      rw [h.read hread (hplace c hc ▸ hsame c hc)]
      exact hload

end Configuration

namespace Project

variable {p : Project}

/-- An identifier that the filter of a project lets through, whatever the overrides. -/
def Takes (p : Project) (id : String) : Prop :=
  ∃ o notes t, p.transformer o = (notes, .ok t) ∧ t.filter.isEligible id = true

/-- The places where a project is read: its root, the files a walk comes to that the filter lets
through, the files of rules above the root and in the directories a walk enters, and those of a
configuration. At some of them nothing need be. -/
inductive Consults (p : Project) : Location → Prop where
  | root : p.Consults p.rootAt
  | source {l : Location} (reached : isReached p.files p.rootAt l = true)
      (taken : p.Takes (walked l (l.drop p.rootAt.length)).id) : p.Consults l
  | rules {d file : Location} (hfile : file ∈ ruleFiles)
      (read : IsBelow d p.rootAt ∨ isEntered p.files p.rootAt d = true) : p.Consults (d ++ file)
  | configuration {c : String} (hc : c ∈ Configuration.candidates) :
      p.Consults (p.rootAt ++ (Path.ofString c).names)

def isTaken (p : Project) (filter : Filter) (l : Location) : Bool :=
  isReached p.files p.rootAt l && filter.isEligible (walked l (l.drop p.rootAt.length)).id

theorem sources_of_directory (hhyphen : (p.root.spelling == "-") = false)
    (hfind : p.files.find p.directory p.root = .ok (p.rootAt, .directory))
    (hrules : Ignore.badRuleAbove? p.files p.rootAt = none) (filter : Filter) :
    p.sources filter [] =
      .ok (inOrder ((p.files.files.filter fun f => p.isTaken filter f.1).map fun f =>
        walked f.1 (f.1.drop p.rootAt.length))) := by
  simp only [sources, walk, Ignore.walk, hhyphen, hfind, hrules, List.isEmpty_nil, if_true,
    Bool.false_eq_true, if_false, Except.map, List.map_map, List.filter_map, List.filter_filter]
  simp only [Function.comp_def, isTaken, Bool.and_comm]

/-- A tree has what the tree of a project has, and the same files where the project is read. -/
structure ReadsAlikeIn (p : Project) (u : Tree) : Prop where
  keeps : p.files.Keeps u
  same : ∀ l, p.Consults l → p.files.SameFileAt u l

namespace ReadsAlikeIn

variable {u : Tree} (h : p.ReadsAlikeIn u)

include h

theorem transformer_again (hgrounded : p.files.IsGrounded) {l : Location}
    (hroot : p.files.locate p.directory p.root = .ok l) {o : Overrides} {notes : List Note}
    {t : Transformer} (ht : p.transformer o = (notes, .ok t)) :
    ({ p with files := u } : Project).transformer o = (notes, .ok t) := by
  obtain rfl : l = p.rootAt := Tree.locate_eq_ok hroot
  rw [transformer] at ht ⊢
  cases hload : Configuration.load p.files p.directory p.root with
  | error fault => simp [hload] at ht
  | ok found =>
    have hagain := Configuration.load_again h.keeps hgrounded hroot
      (fun c hc => h.same _ (.configuration hc)) hload
    rw [hload] at ht
    rw [hagain]
    exact ht

theorem sameRules : SameRules p.files u p.rootAt :=
  fun _ hd _ hfile => h.same _ (.rules hfile hd)

theorem sources_again {filter : Filter} {found : List Source} (hroot : p.root.spelling ≠ "-")
    (hfiles : u.files.filter (fun f => p.isTaken filter f.1) =
      p.files.files.filter fun f => p.isTaken filter f.1)
    (hfound : p.sources filter [] = .ok found) :
    ({ p with files := u } : Project).sources filter [] = .ok found := by
  have hhyphen : (p.root.spelling == "-") = false := by simpa using hroot
  match hfind : p.files.find p.directory p.root with
  | .error fault =>
    simp [sources, walk, Ignore.walk, hhyphen, hfind, Except.map] at hfound
  | .ok (l, .file content) =>
    obtain ⟨hlocate, hget⟩ := Tree.find_eq_ok_iff.mp hfind
    obtain rfl : l = p.rootAt := Tree.find_eq_ok hfind
    have hagain := Tree.find_eq_ok_iff.mpr
      ⟨h.keeps.locate hlocate, (h.same _ .root content).mpr hget⟩
    simp only [sources, walk, Ignore.walk, hhyphen, hfind, hagain] at hfound ⊢
    exact hfound
  | .ok (l, .directory) =>
    obtain ⟨hlocate, hget⟩ := Tree.find_eq_ok_iff.mp hfind
    obtain rfl : l = p.rootAt := Tree.find_eq_ok hfind
    have hagain := Tree.find_eq_ok_iff.mpr ⟨h.keeps.locate hlocate, h.keeps.directory _ hget⟩
    cases hrules : Ignore.badRuleAbove? p.files p.rootAt with
    | some fault => simp [sources, walk, Ignore.walk, hhyphen, hfind, hrules, Except.map] at hfound
    | none =>
      have htaken : ({ p with files := u } : Project).isTaken filter = p.isTaken filter := by
        funext l
        exact congrArg (· && _) (h.sameRules.isReached_eq l)
      rw [sources_of_directory hhyphen hfind hrules, Except.ok.injEq] at hfound
      rw [sources_of_directory (p := { p with files := u }) hhyphen hagain
        (h.sameRules.badRuleAbove?_eq.trans hrules), htaken, hfiles, ← hfound]
      rfl

end ReadsAlikeIn

theorem rewritten_eq {r : TransformRequest} (noted : Bool) {noticed : List Note} {t : Transformer}
    {found : List Source} (ht : p.transformer ⟨r.emitsMap, r.resolution⟩ = (noticed, .ok t))
    (hfound : p.sources t.filter r.files = .ok found) :
    ∃ notes, p.rewritten r noted =
      ⟨found, { Survey.of t p.directory ((Delivery.of r found).action p.directory) p.files found
        with notes := notes }⟩ := by
  simp only [rewritten, survey, ht, hfound]
  exact ⟨_, rfl⟩

theorem exists_sources_of_transform {r : TransformRequest} {shown : Presentation} {noted : Bool}
    (h : (p.transform shown r noted).status = 0) :
    ∃ noticed t found, p.transformer ⟨r.emitsMap, r.resolution⟩ = (noticed, .ok t) ∧
      p.sources t.filter r.files = .ok found := by
  rw [status_transform_eq_zero_iff] at h
  match ht : p.transformer ⟨r.emitsMap, r.resolution⟩ with
  | (notes, .error e) => simp [rewritten, survey, ht] at h
  | (notes, .ok t) =>
    cases hfound : p.sources t.filter r.files with
    | error fault => simp [rewritten, survey, ht, hfound] at h
    | ok found => exact ⟨notes, t, found, rfl, hfound⟩

theorem exists_locate_of_sources (hroot : p.root.spelling ≠ "-") {filter : Filter}
    {found : List Source} (hfound : p.sources filter [] = .ok found) :
    ∃ l, p.files.locate p.directory p.root = .ok l := by
  have hhyphen : (p.root.spelling == "-") = false := by simpa using hroot
  match hfind : p.files.find p.directory p.root with
  | .error fault => simp [sources, walk, Ignore.walk, hhyphen, hfind, Except.map] at hfound
  | .ok (l, e) => exact ⟨l, (Tree.find_eq_ok_iff.mp hfind).1⟩

theorem consults_fileAt (hp : p.IsNamed) {o : Overrides} {noticed : List Note} {t : Transformer}
    (ht : p.transformer o = (noticed, .ok t)) {found : List Source}
    (hfound : p.sources t.filter [] = .ok found) {s : Source} (hs : s ∈ found) :
    p.Consults (p.fileAt s) := by
  cases hwalk : Ignore.walk p.files p.directory p.root with
  | error fault => simp [sources, walk, hwalk, Except.map] at hfound
  | ok all =>
    simp only [sources, walk, hwalk, List.isEmpty_nil, if_true, Except.map,
      Except.ok.injEq] at hfound
    rw [← hfound, mem_inOrder, List.mem_filter] at hs
    obtain ⟨hmem, heligible⟩ := hs
    obtain ⟨⟨l, names⟩, hf, rfl⟩ := List.mem_map.mp hmem
    rcases Ignore.walk_found hwalk hf with ⟨rfl, -⟩ | ⟨hreached, rfl, content, hfile⟩
    · show p.Consults (p.fileAt (walked p.rootAt names))
      rw [fileAt_walked_eq hp.isName_rootAt]
      exact .root
    · rw [fileAt_walked_eq (hp.files _ (Tree.mem_entries_of_mem_files hfile))]
      exact .source hreached ⟨o, noticed, t, ht, heligible⟩

/-- A directory that a walk does not enter. It is not above the root, and on the way to no file of
rules or of a configuration. -/
structure IsAside (p : Project) (d : Location) : Prop where
  not_above : ¬ d <+: p.rootAt
  not_entered : isEntered p.files p.rootAt d = false
  not_rules : ∀ file ∈ ruleFiles, ∀ n < file.length, 0 < n → ¬ file.take n <:+ d
  not_configuration : ∀ c ∈ Configuration.candidates, ∀ n < (Path.ofString c).names.length, 0 < n →
    d ≠ p.rootAt ++ (Path.ofString c).names.take n

namespace IsAside

variable {d l : Location} (h : p.IsAside d)

include h

theorem not_above_of_isEntered (hl : isEntered p.files p.rootAt l = true) : ¬ d <+: l := by
  intro hstart
  have hroot := (Ignore.isEntered_iff.mp hl).1
  rcases List.prefix_or_prefix_of_prefix hstart hroot with habove | hbelow
  · exact h.not_above habove
  · exact absurd (Ignore.isEntered_between hl hbelow hstart) (by simp [h.not_entered])

theorem not_isBelow_of_consults (hl : p.Consults l) : ¬ IsBelow d l := by
  intro hbelow
  cases hl with
  | root => exact h.not_above hbelow.1
  | source reached taken =>
    obtain ⟨⟨rest, rfl⟩, hne⟩ := Ignore.isBelow_of_isReached reached
    cases rest using List.reverseRecOn with
    | nil => exact hne (List.append_nil _).symm
    | append_singleton rest name =>
      rw [← List.append_assoc] at reached hbelow
      rw [Ignore.isReached_concat, Bool.and_eq_true] at reached
      exact h.not_above_of_isEntered reached.1
        ((Files.isBelow_append_singleton_iff _ _ _).mp hbelow)
  | @rules e file hfile read =>
    rcases Files.prefix_or_eq_of_isBelow_append hbelow with hstart | ⟨n, hn, hpos, rfl⟩
    · rcases read with habove | hentered
      · exact h.not_above (hstart.trans habove.1)
      · exact h.not_above_of_isEntered hentered hstart
    · exact h.not_rules file hfile n hn hpos (List.suffix_append _ _)
  | @configuration c hc =>
    rcases Files.prefix_or_eq_of_isBelow_append hbelow with hstart | ⟨n, hn, hpos, heq⟩
    · exact h.not_above hstart
    · exact h.not_configuration c hc n hn hpos heq

end IsAside

section survey

variable {t : Transformer} {found : List Source} {action : Action} {outDir : Path}
  (hwrites : action.perform = Placement.perform p.directory outDir)
  (hdone : (Survey.of t p.directory action p.files found).failure = none)
  (hfree : ∀ l, p.Consults l →
    ¬ Writes p.directory outDir (Survey.of t p.directory action p.files found).visits l)

include hwrites hdone hfree

theorem readsAlikeIn_of_free :
    p.ReadsAlikeIn (Survey.of t p.directory action p.files found).files := by
  have hgrows := Survey.growsTo_of_visits hwrites hdone
  exact ⟨hgrows.keeps, fun l hl => hgrows.sameFileAt (hfree l hl)⟩

/-- A survey that writes nowhere where the project is read leaves a tree with the same transformer
and the same sources. -/
theorem transformer_and_sources_again (hgrounded : p.files.IsGrounded)
    (hroot : p.root.spelling ≠ "-") {o : Overrides} {noticed : List Note}
    (ht : p.transformer o = (noticed, .ok t)) (hfound : p.sources t.filter [] = .ok found) :
    let q : Project := { p with files := (Survey.of t p.directory action p.files found).files }
    q.transformer o = (noticed, .ok t) ∧ q.sources t.filter [] = .ok found := by
  have halike := readsAlikeIn_of_free hwrites hdone hfree
  obtain ⟨l, hlocate⟩ := exists_locate_of_sources hroot hfound
  refine ⟨halike.transformer_again hgrounded hlocate ht, halike.sources_again hroot ?_ hfound⟩
  refine Survey.filter_files_of hwrites hdone fun l hl => ?_
  by_contra htaken
  rw [Bool.not_eq_false, isTaken, Bool.and_eq_true] at htaken
  exact hfree l (.source htaken.1 ⟨o, noticed, t, ht, htaken.2⟩) hl

end survey

section again

variable {r : TransformRequest} {outDir : String} {shown : Presentation} {noted : Bool}

theorem transform_of_free (hp : p.IsNamed) (hgrounded : p.files.IsGrounded) (hfiles : r.files = [])
    (hout : r.outDir = some outDir) (hdiff : r.showsDiff = false)
    (hdone : (p.transform shown r noted).status = 0)
    (hfree : ∀ l, p.Consults l →
      ¬ Writes p.directory (.ofString outDir) (p.rewritten r noted).survey.visits l) :
    let first := p.transform shown r noted
    let again := ({ p with files := first.files } : Project).transform shown r noted
    again.status = 0 ∧ ∀ l, again.files.get? l = first.files.get? l := by
  intro first again
  obtain ⟨noticed, t, found, ht, hfound⟩ := exists_sources_of_transform hdone
  obtain ⟨notes, hrewritten⟩ := rewritten_eq noted ht hfound
  have hwrites := delivery_action (p := p) hout hdiff found
  have hdone' := hdone
  rw [status_transform_eq_zero_iff, hrewritten] at hdone'
  rw [hrewritten] at hfree
  rw [hfiles] at hfound
  have hafter : first.files = (Survey.of t p.directory
      ((Delivery.of r found).action p.directory) p.files found).files := by
    rw [files_transform, hrewritten]
  by_cases hroot : p.root.spelling = "-"
  · obtain rfl : [] = found := by
      simpa [sources, walk, Ignore.walk, hroot, Except.map, inOrder] using hfound
    have hproject : ({ p with files := first.files } : Project) = p := by rw [hafter]; rfl
    have hagain : again = first := by simp only [again, hproject, first]
    exact ⟨hagain ▸ hdone, fun l => by rw [hagain]⟩
  · obtain ⟨htransformer, hsources⟩ :=
      transformer_and_sources_again hwrites hdone' hfree hgrounded hroot ht hfound
    have halike := readsAlikeIn_of_free hwrites hdone' hfree
    rw [← hafter] at htransformer hsources halike
    obtain ⟨later, hlater⟩ := rewritten_eq noted htransformer (hfiles ▸ hsources)
    obtain ⟨hagain, hpatched⟩ := Survey.of_again hwrites hdone' (hafter ▸ Tree.keeps_refl _)
      fun s hs => halike.same _ (consults_fileAt hp ht hfound hs)
    rw [← hafter] at hpatched
    refine ⟨?_, fun l => ?_⟩
    · rw [status_transform_eq_zero_iff, hlater]
      exact hagain
    · rw [files_transform, hlater]
      exact hpatched.get?_eq l

/-- A rewriting with an output directory that does not fail can be made again, if it has written at
no place where the project is read: it does not fail then either, and neither makes nor changes
anything. So it is if the output directory is aside and the identifiers lead nowhere above it. -/
theorem transform_again (hp : p.IsNamed) (hgrounded : p.files.IsGrounded) (hfiles : r.files = [])
    (hout : r.outDir = some outDir) (hdiff : r.showsDiff = false)
    (hdone : (p.transform shown r noted).status = 0) :
    let d := (Path.ofString outDir).resolved p.directory
    let result := p.rewritten r noted
    let first := p.transform shown r noted
    let again := ({ p with files := first.files } : Project).transform shown r noted
    ((∀ l, p.Consults l →
        ∀ v ∈ result.survey.visits, l ∉ written p.directory (.ofString outDir) v) →
      again.status = 0 ∧ ∀ l, again.files.get? l = first.files.get? l) ∧
    (p.IsAside d → (∀ s ∈ result.sources, IsLevel s.id) →
      again.status = 0 ∧ ∀ l, again.files.get? l = first.files.get? l) := by
  intro d result first again
  have hagain : (∀ l, p.Consults l →
      ∀ v ∈ result.survey.visits, l ∉ written p.directory (.ofString outDir) v) →
        again.status = 0 ∧ ∀ l, again.files.get? l = first.files.get? l := fun hfree =>
    transform_of_free hp hgrounded hfiles hout hdiff hdone fun l hl ⟨v, hv, hwritten⟩ =>
      hfree l hl v hv hwritten
  refine ⟨hagain, fun haside hlevel => hagain fun l hl v hv hwritten => ?_⟩
  have hsource : v.source ∈ result.sources := by
    rw [← visited_of_transform hdone]
    exact List.mem_map_of_mem hv
  exact haside.not_isBelow_of_consults hl ((hlevel _ hsource).isBelow_of_mem_written hwritten)

end again

def mapsTo (outDir : String) : TransformRequest := { outDir := some outDir, emitsMap := true }

/-- A hidden directory of the project is not entered, so that outputs there are no sources. -/
theorem transform_again_hidden :
    let d := (Path.ofString ".out").resolved twoSources.directory
    let first := twoSources.transform ⟨false, []⟩ (mapsTo ".out") false
    let again := ({ twoSources with files := first.files } : Project).transform ⟨false, []⟩
      (mapsTo ".out") false
    twoSources.IsNamed ∧ twoSources.files.IsGrounded ∧ first.status = 0 ∧ twoSources.IsAside d ∧
      (∀ s ∈ (twoSources.rewritten (mapsTo ".out") false).sources, IsLevel s.id) ∧
      first.files.get? ["p", ".out", "a.js.map"] ≠ none ∧
      again.status = 0 ∧ ∀ l, again.files.get? l = first.files.get? l := by
  intro d first again
  have hnamed : twoSources.IsNamed := ⟨by decide +kernel, by decide +kernel, by decide +kernel⟩
  have hgrounded : twoSources.files.IsGrounded := by decide +kernel
  have haside : twoSources.IsAside d :=
    ⟨by decide +kernel, by decide +kernel, by decide +kernel, by decide +kernel⟩
  have hstatus : first.status = 0 := by
    simp only [first, transform, rewritten, survey, mapsTo, sources_twoSources]
    decide +kernel
  have hlevel : ∀ s ∈ (twoSources.rewritten (mapsTo ".out") false).sources, IsLevel s.id := by
    simp only [rewritten, survey, mapsTo, sources_twoSources]
    decide +kernel
  have hmap : first.files.get? ["p", ".out", "a.js.map"] ≠ none := by
    simp only [first, transform, rewritten, survey, mapsTo, sources_twoSources]
    decide +kernel
  have hout : (mapsTo ".out").outDir = some ".out" := rfl
  have hagain := transform_again hnamed hgrounded rfl hout rfl hstatus
  exact ⟨hnamed, hgrounded, hstatus, haside, hlevel, hmap, hagain.2 haside hlevel⟩

def alone : Project where
  files := ⟨[(["p"], .directory), (["p", "x.js"], .file (.text "1;\n".toList))]⟩
  directory := ["p"]
  root := .ofSteps ["p"]

def aloneTwice : Tree :=
  ⟨[(["p", "out", "x.js"], .file (.text "1;\n".toList)), (["p", "out"], .directory),
    (["p"], .directory), (["p", "x.js"], .file (.text "1;\n".toList))]⟩

theorem sources_alone (filter : Filter) : alone.sources filter [] =
    .ok ([walked ["p", "x.js"] ["x.js"]].filter fun s => filter.isEligible s.id) := by
  have hwalk : alone.walk = .ok [walked ["p", "x.js"] ["x.js"]] := by decide +kernel
  exact sources_of_walk hwalk (.refl _) (by decide +kernel) (by decide +kernel) filter

theorem sources_aloneTwice (filter : Filter) :
    ({ alone with files := aloneTwice } : Project).sources filter [] =
      .ok ([walked ["p", "out", "x.js"] ["out", "x.js"], walked ["p", "x.js"] ["x.js"]].filter
        fun s => filter.isEligible s.id) := by
  have hwalk : ({ alone with files := aloneTwice } : Project).walk =
      .ok [walked ["p", "out", "x.js"] ["out", "x.js"], walked ["p", "x.js"] ["x.js"]] := by
    decide +kernel
  exact sources_of_walk hwalk (.refl _) (by decide +kernel) (by decide +kernel) filter

/-- The output directory inside the root is walked the next time, and its file is written again,
one directory further down. -/
theorem not_transform_again_inside :
    let first := alone.transform ⟨false, []⟩ { outDir := some "out" } false
    let again := ({ alone with files := first.files } : Project).transform ⟨false, []⟩
      { outDir := some "out" } false
    ¬ (first.status = 0 → again.status = 0 ∧ ∀ l, again.files.get? l = first.files.get? l) := by
  intro first again hall
  have hstatus : first.status = 0 := by
    simp only [first, transform, rewritten, survey, sources_alone]
    decide +kernel
  have hfiles : first.files = aloneTwice := by
    simp only [first, transform, rewritten, survey, sources_alone]
    decide +kernel
  have hagain : again.files.get? ["p", "out", "out", "x.js"] ≠ none := by
    simp only [again, hfiles, transform, rewritten, survey, sources_aloneTwice]
    decide +kernel
  have hnone : first.files.get? ["p", "out", "out", "x.js"] = none := by
    rw [hfiles]
    decide +kernel
  exact hagain (((hall hstatus).2 _).trans hnone)

end Project

end Outdent
