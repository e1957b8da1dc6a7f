import Outdent.Proofs.Edit.Emission
import Outdent.Proofs.Marker.Reference
import Outdent.Proofs.Syntax.Layout
/-! # Stretches that render

What accepted edits make of a stretch depends on the edits in it alone. A stretch renders if a text
is what its own edits make of it, whatever edits stand around it. Stretches that render are put
together along siblings. -/
namespace Outdent.Marker.Reference

open Outdent.Syntax Outdent.Edit

/-- The edits of a list that touch a span are given ones. -/
structure Owns (es : List Edit) (r : Span) (own : List Edit) : Prop where
  mem : ∀ e ∈ own, e ∈ es
  all : ∀ e ∈ es, ∀ o, e.range.Covers o → r.Covers o → e ∈ own

/-- A text is what edits of a span make of it, in any list of edits that has no others there. -/
structure Renders (text : List Char) (r : Span) (t : List Char) (own : List Edit) : Prop where
  valid : r.isValidIn text = true
  within : ∀ e ∈ own, e.range.Within r
  neutral : Neutral own
  eq : ∀ es, Accepted text es → Neutral es → Owns es r own →
    t = emittedBetween es text r.start r.stop

variable {text : List Char}

theorem Renders.congr {r : Span} {t : List Char} {own own' : List Edit}
    (h : Renders text r t own) (hmem : ∀ e, e ∈ own' ↔ e ∈ own) : Renders text r t own' where
  valid := h.valid
  within e he := h.within e ((hmem e).mp he)
  neutral e he := h.neutral e ((hmem e).mp he)
  eq es ha hn ho := h.eq es ha hn
    ⟨fun e he => ho.mem e ((hmem e).mpr he), fun e he o hc hr => (hmem e).mp (ho.all e he o hc hr)⟩

theorem covers_of_within {a b : Span} {o : Nat} (h : a.Within b) (ho : a.Covers o) :
    b.Covers o := by
  unfold Span.Within at h
  unfold Span.Covers at *
  omega

theorem fill_eq {es : List Edit} {a b : Nat} {parts : List (Span × List Char)}
    (ha : Text.isBoundary a text = true) (hb : Text.isBoundary b text = true)
    (hseq : Sequence a b (parts.map Prod.fst)) (hv : ∀ p ∈ parts, p.1.isValidIn text = true)
    (heq : ∀ p ∈ parts, p.2 = emittedBetween es text p.1.start p.1.stop)
    (hcov : ∀ e ∈ es, ∀ o, a ≤ o → o < b → e.range.Covers o → ∃ p ∈ parts, p.1.Covers o) :
    fill text a b parts = emittedBetween es text a b := by
  induction parts generalizing a with
  | nil =>
    rw [fill, emittedBetween_untouched ha hb hseq.1]
    intro o hle hlt e he ho
    obtain ⟨p, hp, -⟩ := hcov e he o hle hlt ho
    exact absurd hp List.not_mem_nil
  | cons p parts ih =>
    obtain ⟨r, t⟩ := p
    have hrv : r.isValidIn text = true := hv (r, t) List.mem_cons_self
    have hstart : a ≤ r.start := hseq.1
    obtain ⟨hle, -, hr, hr'⟩ := Span.isValidIn_iff.mp hrv
    have forward : ∀ s ∈ parts.map Prod.fst ++ [⟨b, b⟩], s.start ≤ s.stop := by
      intro s hs
      rcases List.mem_append.mp hs with hs | hs
      · obtain ⟨p, hp, rfl⟩ := List.mem_map.mp hs
        exact (Span.isValidIn_iff.mp (hv p (List.mem_cons_of_mem _ hp))).1
      · exact List.mem_singleton.mp hs ▸ Nat.le_refl _
    have later : ∀ s ∈ parts.map Prod.fst ++ [⟨b, b⟩], r.stop ≤ s.start :=
      hseq.2.position_le forward
    have hend : r.stop ≤ b := later ⟨b, b⟩ (by simp)
    have first : emittedBetween es text a r.start = Text.slice a r.start text := by
      apply emittedBetween_untouched ha hr hstart
      intro o hlo hhi e he ho
      obtain ⟨p, hp, hpo⟩ := hcov e he o hlo (by omega) ho
      have hlow : r.start ≤ p.1.start := by
        rcases List.mem_cons.mp hp with rfl | hp
        · exact Nat.le_refl _
        · exact Nat.le_trans hle (later p.1 (List.mem_append_left _ (List.mem_map_of_mem hp)))
      have := hpo.1
      omega
    have rest : fill text r.stop b parts = emittedBetween es text r.stop b := by
      apply ih hr' hseq.2 (fun p hp => hv p (List.mem_cons_of_mem _ hp))
        (fun p hp => heq p (List.mem_cons_of_mem _ hp))
      intro e he o hlo hhi ho
      obtain ⟨p, hp, hpo⟩ := hcov e he o (by omega) hhi ho
      rcases List.mem_cons.mp hp with rfl | hp
      · have hbehind : o < r.stop := hpo.2
        omega
      · exact ⟨p, hp, hpo⟩
    rw [fill, emittedBetween_append ha hr hb hstart (by omega),
      emittedBetween_append hr hr' hb hle hend, first, rest,
      ← heq (r, t) List.mem_cons_self, List.append_assoc]

theorem sequence_of_siblings {r : Span} {spans : List Span} (hr : r.start ≤ r.stop)
    (h : Siblings r spans) (forward : ∀ s ∈ spans, s.start ≤ s.stop)
    (sorted : spans.Pairwise fun a b => a.le b = true) : Sequence r.start r.stop spans := by
  apply Span.follows_of_pairwise
  · refine List.pairwise_append.mpr ⟨?_, List.pairwise_singleton _ _, ?_⟩
    · refine (sorted.and h.apart).imp_of_mem fun _ hb hab => ?_
      exact Span.stop_le_start (forward _ hb) hab.1 hab.2
    · intro s hs t ht
      rw [List.mem_singleton.mp ht]
      exact (h.within s hs).2
  · intro s hs
    rcases List.mem_append.mp hs with hs | hs
    · exact (h.within s hs).1
    · rw [List.mem_singleton.mp hs]
      exact hr

instance : Std.Total fun p q : Span × List Char => p.1.le q.1 = true where
  total p q := by
    by_cases h : p.1.le q.1 = true
    · exact Or.inl h
    · exact Or.inr (Span.le_total h)

instance : IsTrans (Span × List Char) fun p q => p.1.le q.1 = true where
  trans _ _ _ := Span.le_trans

theorem restate_eq {es : List Edit} {r : Span} {parts : List (Span × List Char)}
    (hr : r.isValidIn text = true) (hs : Siblings r (parts.map Prod.fst))
    (hv : ∀ p ∈ parts, p.1.isValidIn text = true)
    (heq : ∀ p ∈ parts, p.2 = emittedBetween es text p.1.start p.1.stop)
    (hcov : ∀ e ∈ es, ∀ o, e.range.Covers o → r.Covers o → ∃ p ∈ parts, p.1.Covers o) :
    restate text r parts = emittedBetween es text r.start r.stop := by
  obtain ⟨hle, -, ha, hb⟩ := Span.isValidIn_iff.mp hr
  let before : Span × List Char → Span × List Char → Prop := fun p q => p.1.le q.1 = true
  have hperm := List.perm_insertionSort before parts
  have hsorted := List.pairwise_insertionSort before parts
  have hmem : ∀ p, p ∈ parts.insertionSort before ↔ p ∈ parts := fun p => hperm.mem_iff
  apply fill_eq ha hb
  · apply sequence_of_siblings hle
    · constructor
      · exact fun s hs' => hs.within s ((hperm.map Prod.fst).mem_iff.mp hs')
      · exact (hperm.symm.map Prod.fst).pairwise hs.apart fun hab => hab.symm
    · intro s hs'
      obtain ⟨p, hp, rfl⟩ := List.mem_map.mp hs'
      exact (Span.isValidIn_iff.mp (hv p ((hmem p).mp hp))).1
    · exact List.pairwise_map.mpr hsorted
  · exact fun p hp => hv p ((hmem p).mp hp)
  · exact fun p hp => heq p ((hmem p).mp hp)
  · intro e he o hlo hhi ho
    obtain ⟨p, hp, hpo⟩ := hcov e he o ho ⟨hlo, hhi⟩
    exact ⟨p, (hmem p).mpr hp, hpo⟩

structure Part where
  span : Span
  text : List Char
  own : List Edit

def Part.placed (p : Part) : Span × List Char := (p.span, p.text)

/-- An edit that touches a part belongs to it, since the other parts stand apart from it. -/
theorem Owns.part {es : List Edit} {r : Span} {parts : List (Span × List Edit)}
    (ho : Owns es r (parts.flatMap Prod.snd)) (hs : Siblings r (parts.map Prod.fst))
    (hw : ∀ p ∈ parts, ∀ e ∈ p.2, e.range.Within p.1) : ∀ p ∈ parts, Owns es p.1 p.2 := by
  intro p hp
  constructor
  · exact fun e he => ho.mem e (List.mem_flatMap.mpr ⟨p, hp, he⟩)
  · intro e he o hc hpo
    have hro := covers_of_within (hs.within _ (List.mem_map_of_mem hp)) hpo
    obtain ⟨q, hq, heq⟩ := List.mem_flatMap.mp (ho.all e he o hc hro)
    have hqo := covers_of_within (hw q hq e heq) hc
    have hqp : q = p := by
      by_contra hne
      have hsym : Std.Symm fun a b : Span × List Edit => a.1.Apart b.1 :=
        ⟨fun _ _ hab => hab.symm⟩
      have hapart := (List.pairwise_map.mp hs.apart).forall hq hp hne
      exact hapart.not_covers hqo hpo
    exact hqp ▸ heq

theorem Owns.congr {es : List Edit} {r : Span} {own own' : List Edit} (h : Owns es r own)
    (hmem : ∀ e, e ∈ own' ↔ e ∈ own) : Owns es r own' :=
  ⟨fun e he => h.mem e ((hmem e).mp he), fun e he o hc hr => (hmem e).mpr (h.all e he o hc hr)⟩

theorem renders_restate {r : Span} (parts : List Part) (hr : r.isValidIn text = true)
    (hs : Siblings r (parts.map Part.span))
    (hp : ∀ p ∈ parts, Renders text p.span p.text p.own) :
    Renders text r (restate text r (parts.map Part.placed)) (parts.flatMap Part.own) := by
  have hmap : (parts.map Part.placed).map Prod.fst = parts.map Part.span := by
    simp [Part.placed, Function.comp_def]
  constructor
  · exact hr
  · intro e he
    obtain ⟨p, hp', he⟩ := List.mem_flatMap.mp he
    exact ((hp p hp').within e he).trans (hs.within _ (List.mem_map_of_mem hp'))
  · intro e he
    obtain ⟨p, hp', he⟩ := List.mem_flatMap.mp he
    exact (hp p hp').neutral e he
  · intro es ha hn ho
    have howned : Owns es r ((parts.map fun p => (p.span, p.own)).flatMap Prod.snd) := by
      simpa [List.flatMap_map] using ho
    have howns := howned.part (by simpa [Function.comp_def] using hs) fun q hq => by
      obtain ⟨p, hp', rfl⟩ := List.mem_map.mp hq
      exact (hp p hp').within
    apply restate_eq hr (hmap ▸ hs)
    · intro p hp'
      obtain ⟨q, hq, rfl⟩ := List.mem_map.mp hp'
      exact (hp q hq).valid
    · intro p hp'
      obtain ⟨q, hq, rfl⟩ := List.mem_map.mp hp'
      exact (hp q hq).eq es ha hn (howns _ (List.mem_map_of_mem hq))
    · intro e he o hc hro
      obtain ⟨q, hq, heq⟩ := List.mem_flatMap.mp (ho.all e he o hc hro)
      exact ⟨q.placed, List.mem_map_of_mem hq, covers_of_within ((hp q hq).within e heq) hc⟩

/-- What is removed renders as nothing, also with edits inside. -/
theorem renders_deleted {r : Span} (own : List Edit) (hr : r.isValidIn text = true)
    (hw : ∀ e ∈ own, e.range.Within r) (hn : Neutral own) :
    Renders text r [] (.delete r :: own) where
  valid := hr
  within e he := by
    rcases List.mem_cons.mp he with rfl | he
    · exact Span.Within.refl r
    · exact hw e he
  neutral e he := by
    rcases List.mem_cons.mp he with rfl | he
    · exact fun _ => rfl
    · exact hn e he
  eq es ha hne ho := (emittedBetween_range ha hne (ho.mem _ List.mem_cons_self)).symm

end Outdent.Marker.Reference
