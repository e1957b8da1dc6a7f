import Outdent.Proofs.Edit.Length
import Outdent.Proofs.Marker.UsageEdits
import Outdent.Proofs.Rewrite
import Outdent.Proofs.Segment.Stripping
/-! # Rewrites make documents shorter

A segment without its indentation has no more bytes than before, and every import and every usage
of the marker loses at least one byte. So each rewrite makes a document shorter, and rewriting the
result of a rewrite, and its result, comes to an end. -/
namespace Outdent

namespace Text

theorem byteLength_le_of_sublist {xs ys : List Char} (h : xs.Sublist ys) :
    byteLength xs ≤ byteLength ys := by
  induction h with
  | slnil => exact Nat.le_refl _
  | cons c _ ih => exact Nat.le_trans ih (Nat.le_add_left _ _)
  | cons_cons c _ ih => exact Nat.add_le_add_left ih _

end Text

namespace Segment

theorem byteLength_normalize_le (raw : List Char) :
    Text.byteLength (normalize raw) ≤ Text.byteLength raw :=
  Text.byteLength_le_of_sublist (normalize_sublist raw)

end Segment

namespace Syntax

def Segment.IsMeasured (s : Segment) : Prop :=
  s.range.start + Text.byteLength s.raw = s.range.stop

instance (s : Segment) : Decidable s.IsMeasured := inferInstanceAs (Decidable (_ = _))

/-- What a parser says of the bytes of a node: identifiers, templates and imports take up at least
one, segments as many as their texts have, and type arguments end where their tag ends or behind. -/
def Node.IsMeasured : Node → Prop
  | .identifier r _ => r.start < r.stop
  | .template body =>
    body.range.start < body.range.stop ∧ ∀ s ∈ body.segments, s.IsMeasured
  | .tagged _ tag typeArguments body =>
    (body.range.start < body.range.stop ∧ ∀ s ∈ body.segments, s.IsMeasured) ∧
      ∀ t ∈ typeArguments.toList, tag.range.stop ≤ t.range.stop
  | .importing d => d.range.start < d.range.stop
  | .other _ _ _ => True

instance : (n : Node) → Decidable n.IsMeasured
  | .identifier _ _ => inferInstanceAs (Decidable (_ < _))
  | .template _ => inferInstanceAs (Decidable (_ ∧ _))
  | .tagged _ _ _ _ => inferInstanceAs (Decidable (_ ∧ _))
  | .importing _ => inferInstanceAs (Decidable (_ < _))
  | .other _ _ _ => isTrue trivial

def Module.IsMeasured (m : Module) : Prop := ∀ n ∈ m.items, ∀ k, n.Contains k → k.IsMeasured

instance (m : Module) : Decidable m.IsMeasured := inferInstanceAs (Decidable (∀ _ ∈ _, _))

end Syntax

namespace Marker

open Syntax Reference

variable {m : Module}

theorem replacements_shrink {body : Template Node} (h : ∀ s ∈ body.segments, s.IsMeasured) :
    ∀ e ∈ Usage.replacements body, Text.byteLength e.replacement ≤ e.range.length := by
  intro e he
  obtain ⟨s, hs, he⟩ := List.mem_filterMap.mp he
  have hmeasured : s.range.start + Text.byteLength s.raw = s.range.stop := h s hs
  have hle := Segment.byteLength_normalize_le s.raw
  simp only at he
  split at he
  · contradiction
  · rw [← Option.some.inj he]
    simp only [Edit.replacement, Edit.range, Span.length]
    omega

theorem edits_shrink {u : Usage} (h : ∀ s ∈ u.body.segments, s.IsMeasured) :
    ∀ e ∈ u.edits, Text.byteLength e.replacement ≤ e.range.length := by
  intro e he
  rcases List.mem_append.mp he with he | he
  · obtain ⟨r, -, rfl⟩ := List.mem_map.mp he
    exact Nat.zero_le _
  · exact replacements_shrink h e he

theorem usage_measured {names : List String} {n : Node} {u : Usage}
    (h : ∀ k, n.Contains k → k.IsMeasured) (hu : usage? names n = some u) :
    (∀ s ∈ u.body.segments, s.IsMeasured) ∧ ∃ r ∈ u.removals, r.start < r.stop := by
  rcases usage?_eq_some hu with ⟨r, tag, types, body, rfl, hm, rfl⟩ |
    ⟨r, r', opening, types, types', inner, body, rfl, rfl⟩
  · obtain ⟨⟨_, hsegments⟩, htypes⟩ := h _ (.self _)
    obtain ⟨⟨r', name, rfl⟩, -⟩ := of?_of_isMarked types body hm
    have htag : r'.start < r'.stop := h _ (.step List.mem_cons_self (.self _))
    refine ⟨hsegments, tagSpan (.identifier r' name) types, List.mem_cons_self, ?_⟩
    cases types with
    | none => exact htag
    | some t => exact Nat.lt_of_lt_of_le htag (htypes t List.mem_cons_self)
  · have htag := h (.tagged r' (.template opening) types' inner)
      (.step List.mem_cons_self (.self _))
    have hopening := h (.template opening)
      (.step List.mem_cons_self (.step List.mem_cons_self (.self _)))
    exact ⟨htag.1.2, opening.range, List.mem_cons_self, hopening.1⟩

theorem module_edits_shrink (h : m.IsMeasured) :
    ∀ e ∈ edits m, Text.byteLength e.replacement ≤ e.range.length := by
  intro e he
  rcases List.mem_append.mp he with he | he
  · obtain ⟨r, -, rfl⟩ := List.mem_map.mp he
    exact Nat.zero_le _
  · obtain ⟨u, hu, he⟩ := List.mem_flatMap.mp he
    obtain ⟨n, hn, k, hk, hu⟩ := mem_usages_iff.mp hu
    exact edits_shrink (usage_measured (fun j hj => h n hn j (hk.trans hj)) hu).1 e he

theorem exists_edit_shrinking (h : m.IsMeasured) (hmatches : (Stats.ofModule m).hasMatches = true) :
    ∃ e ∈ edits m, Text.byteLength e.replacement < e.range.length := by
  have hdelete : ∀ r : Span, r.start < r.stop →
      Text.byteLength (Edit.delete r).replacement < (Edit.delete r).range.length := by
    intro r hr
    simp only [Edit.replacement, Edit.range, Span.length, Text.byteLength]
    omega
  have hsome : imports m ≠ [] ∨ usages m ≠ [] := by
    by_contra hnone
    rw [not_or, not_not, not_not] at hnone
    rw [hasMatches_eq_false_iff.mpr hnone] at hmatches
    contradiction
  rcases hsome with himports | husages
  · obtain ⟨d, hd⟩ := List.exists_mem_of_ne_nil _ himports
    refine ⟨.delete d.range, mem_edits.mpr (Or.inl ⟨d, hd, rfl⟩), hdelete _ ?_⟩
    exact h _ (mem_imports.mp hd).1 _ (.self _)
  · obtain ⟨u, hu⟩ := List.exists_mem_of_ne_nil _ husages
    obtain ⟨n, hn, k, hk, hof⟩ := mem_usages_iff.mp hu
    obtain ⟨-, r, hr, hlt⟩ := usage_measured (fun j hj => h n hn j (hk.trans hj)) hof
    refine ⟨.delete r, List.mem_append_right _ ?_, hdelete r hlt⟩
    exact List.mem_flatMap.mpr ⟨u, hu, List.mem_append_left _ (List.mem_map_of_mem hr)⟩

end Marker

namespace Document

open Marker

def IsMeasured (d : Document) : Prop := ∀ m, d.parse = .ok m → m.IsMeasured

instance (d : Document) : Decidable d.IsMeasured :=
  match h : d.parse with
  | .ok m => decidable_of_iff m.IsMeasured (by simp [IsMeasured, h])
  | .error _ => isTrue (by simp [IsMeasured, h])

variable {d e : Document} {resolution : Option Resolution}

theorem byteLength_lt_of_rewrite (h : d.IsMeasured) {r : Rewritten}
    (hr : d.rewrite resolution = .ok (some r)) :
    Text.byteLength r.code < Text.byteLength d.text := by
  obtain ⟨m, edited, hparse, hmatches, hedited, rfl⟩ := rewrite_eq_some_iff.mp hr
  have hmeasured := h m hparse
  cases hcut : Edit.cut d.text (edits m) with
  | error fault => simp [Edited.ofEdits, hcut, bind, Except.bind] at hedited
  | ok pieces =>
    simp only [Edited.ofEdits, hcut, bind, Except.bind, pure, Except.pure, Except.ok.injEq]
      at hedited
    subst hedited
    exact Edit.byteLength_lt_of_cut hcut (module_edits_shrink hmeasured)
      (exists_edit_shrinking hmeasured hmatches)

/-- A document becomes another one by a number of rewrites, each of the result of the one before. -/
inductive RewritesIn (resolution : Option Resolution) : Nat → Document → Document → Prop where
  | refl (d : Document) : RewritesIn resolution 0 d d
  | step {n : Nat} {d e : Document} {r : Rewritten} :
    d.rewrite resolution = .ok (some r) → RewritesIn resolution n ⟨r.id, r.code⟩ e →
      RewritesIn resolution (n + 1) d e

theorem RewritesIn.add_byteLength_le {n : Nat} (h : RewritesIn resolution n d e)
    (hmeasured : ∀ k f, RewritesIn resolution k d f → f.IsMeasured) :
    n + Text.byteLength e.text ≤ Text.byteLength d.text := by
  induction h with
  | refl d => exact Nat.le_of_eq (Nat.zero_add _)
  | step hr _ ih =>
    have hlt := byteLength_lt_of_rewrite (hmeasured 0 _ (.refl _)) hr
    have hrest := ih fun k f hf => hmeasured (k + 1) f (.step hr hf)
    simp only at hrest
    omega

theorem exists_last_rewrite (hmeasured : ∀ k f, RewritesIn resolution k d f → f.IsMeasured) :
    ∃ n e, RewritesIn resolution n d e ∧
      (e.rewrite resolution = .ok none ∨ ∃ fault, e.rewrite resolution = .error fault) := by
  -- on the number of bytes, of which every rewrite takes one at least
  induction hlength : Text.byteLength d.text using Nat.strong_induction_on generalizing d with
  | h length ih =>
    cases hr : d.rewrite resolution with
    | error fault => exact ⟨0, d, .refl d, Or.inr ⟨fault, hr⟩⟩
    | ok result =>
      cases result with
      | none => exact ⟨0, d, .refl d, Or.inl hr⟩
      | some r =>
        have hlt := byteLength_lt_of_rewrite (hmeasured 0 d (.refl d)) hr
        obtain ⟨n, e, hrun, hend⟩ := ih (Text.byteLength r.code) (hlength ▸ hlt)
          (d := ⟨r.id, r.code⟩) (fun k f hf => hmeasured (k + 1) f (.step hr hf)) rfl
        exact ⟨n + 1, e, .step hr hrun, hend⟩

/-- A rewrite makes a document shorter, so that rewriting its result and the results that follow
ends, after no more rewrites than the document has bytes, with one that finds nothing to do or with
an error. -/
theorem rewrite_shrinks (d : Document) (resolution : Option Resolution) :
    (d.IsMeasured → ∀ r, d.rewrite resolution = .ok (some r) →
      Text.byteLength r.code < Text.byteLength d.text) ∧
    ((∀ n e, RewritesIn resolution n d e → e.IsMeasured) →
      (∀ n e, RewritesIn resolution n d e →
        n + Text.byteLength e.text ≤ Text.byteLength d.text) ∧
      ∃ n ≤ Text.byteLength d.text, ∃ e, RewritesIn resolution n d e ∧
        (e.rewrite resolution = .ok none ∨ ∃ fault, e.rewrite resolution = .error fault)) := by
  refine ⟨fun h r hr => byteLength_lt_of_rewrite h hr, fun hmeasured => ⟨?_, ?_⟩⟩
  · intro n e hrun
    exact hrun.add_byteLength_le hmeasured
  · obtain ⟨n, e, hrun, hend⟩ := exists_last_rewrite hmeasured
    have hle := hrun.add_byteLength_le hmeasured
    exact ⟨n, Nat.le_trans (Nat.le_add_right _ _) hle, e, hrun, hend⟩

def wrappedTwice : Document :=
  ⟨"src/a.ts", "import 'rollup-plugin-dedent';\ndedent<A>``` a ```".toList⟩

def wrappedOnce : Document := ⟨"src/a.ts", "\n``` a ```".toList⟩

def unwrapped : Document := ⟨"src/a.ts", "\n`a`".toList⟩

theorem of_rewritesIn_wrappedTwice {n : Nat} {e : Document}
    (h : RewritesIn none n wrappedTwice e) :
    e = wrappedTwice ∨ e = wrappedOnce ∨ e = unwrapped := by
  have hfirst : wrappedTwice.rewrite none =
      .ok (some ⟨wrappedOnce.id, wrappedOnce.text, none, ⟨1, 1, 0, 1⟩⟩) := by decide +kernel
  have hsecond : wrappedOnce.rewrite none =
      .ok (some ⟨unwrapped.id, unwrapped.text, none, ⟨0, 0, 1, 1⟩⟩) := by decide +kernel
  have hthird : unwrapped.rewrite none = .ok none := by decide +kernel
  cases h with
  | refl => exact Or.inl rfl
  | step hr h =>
    obtain rfl := Option.some.inj (Except.ok.inj (hfirst.symm.trans hr))
    cases h with
    | refl => exact Or.inr (Or.inl rfl)
    | step hr h =>
      obtain rfl := Option.some.inj (Except.ok.inj (hsecond.symm.trans hr))
      cases h with
      | refl => exact Or.inr (Or.inr rfl)
      | step hr h => exact absurd (hthird.symm.trans hr) (by simp)

theorem rewrite_shrinks_wrappedTwice :
    (wrappedTwice.IsMeasured ∧ wrappedTwice.rewrite none =
        .ok (some ⟨wrappedOnce.id, wrappedOnce.text, none, ⟨1, 1, 0, 1⟩⟩) ∧
      Text.byteLength wrappedOnce.text < Text.byteLength wrappedTwice.text) ∧
    (∀ n e, RewritesIn none n wrappedTwice e → e.IsMeasured) ∧
    (∀ n e, RewritesIn none n wrappedTwice e →
      n + Text.byteLength e.text ≤ Text.byteLength wrappedTwice.text) ∧
    ∃ n ≤ Text.byteLength wrappedTwice.text, ∃ e, RewritesIn none n wrappedTwice e ∧
      (e.rewrite none = .ok none ∨ ∃ fault, e.rewrite none = .error fault) := by
  have hfirst : wrappedTwice.rewrite none =
      .ok (some ⟨wrappedOnce.id, wrappedOnce.text, none, ⟨1, 1, 0, 1⟩⟩) := by decide +kernel
  have hmeasured : ∀ n e, RewritesIn none n wrappedTwice e → e.IsMeasured := by
    intro n e h
    rcases of_rewritesIn_wrappedTwice h with rfl | rfl | rfl
    · decide +kernel
    · decide +kernel
    · decide +kernel
  obtain ⟨hshrinks, hends⟩ := rewrite_shrinks wrappedTwice none
  have hself := hmeasured 0 wrappedTwice (.refl _)
  exact ⟨⟨hself, hfirst, hshrinks hself _ hfirst⟩, hmeasured, hends hmeasured⟩

end Document

end Outdent
