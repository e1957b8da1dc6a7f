import Mathlib.Data.List.Perm.Basic
import Outdent.Proofs.Edit.Refusal
import Outdent.Proofs.Marker.UsageEdits
/-! # When edits get in each other's way

Each usage edits bytes of its own: no delimiter, tag or segment belongs to two of them. Only where
a usage lies in what another one, or a marker import, takes out as a whole do two edits meet, and
then they are refused. -/
namespace Outdent.Marker

open Outdent.Syntax Reference

variable {text : List Char} {names : List String}

/-- Whether a node is a marked template with a usage in the type arguments that go with its tag. -/
def HidesUsage (names : List String) : Node → Prop
  | .tagged _ tag (some t) _ => isMarked names tag = true ∧ HoldsUsage names t
  | _ => False

instance : (n : Node) → Decidable (HidesUsage names n)
  | .tagged _ _ (some _) _ => inferInstanceAs (Decidable (_ ∧ _))
  | .tagged _ _ none _ => isFalse id
  | .identifier _ _ => isFalse id
  | .template _ => isFalse id
  | .importing _ => isFalse id
  | .other _ _ _ => isFalse id

/-- Whether some usage of a module is taken out with the type arguments of another one, or with a
marker import. -/
def ModuleHidesUsage (m : Module) : Prop :=
  (∃ n ∈ m.items, ∃ k, n.Contains k ∧ HidesUsage (Marker.names m) k) ∨
    ∃ d ∈ imports m, ∃ a ∈ d.attributes, HoldsUsage (Marker.names m) a

instance (m : Module) : Decidable (ModuleHidesUsage m) :=
  inferInstanceAs (Decidable (_ ∨ _))

/-- Edits that meet: one takes out a stretch in which another one has something to remove. -/
theorem not_accepted_of_holdsUsage {es : List Edit} {n : Node} {r : Span} (h : n.Fits text)
    (hsolid : ∀ k, n.Contains k → k.IsSolid) (hin : n.range.Within r) (hn : HoldsUsage names n)
    (hes : ∀ e ∈ editsIn names n, e ∈ es) (hr : .delete r ∈ es) : ¬ Edit.Accepted text es := by
  intro ha
  obtain ⟨k, hk, hu⟩ := hn
  obtain ⟨u, hu⟩ := Option.isSome_iff_exists.mp hu
  obtain ⟨e, he, hlt, hstart, hstop⟩ := exists_edit_within (h.of_contains hk)
    (fun m hm => hsolid m (hk.trans hm)) hu
  have hmem : e ∈ es := hes e (mem_editsIn_iff.mpr ⟨k, hk, u, hu, he⟩)
  have hwithin : k.range.Within r := (h.within_of_contains hk).trans hin
  have hne : e ≠ .delete r := by
    rintro rfl
    have := hwithin.2
    simp only [Edit.range] at hstop
    omega
  have hapart := ha.apart_of_ne hmem hr hne
  unfold Span.Within at hwithin
  simp only [Span.Apart, Edit.range] at hapart hlt hstart hstop
  omega

structure ApartWithin (r : Span) (es : List Edit) : Prop where
  within : ∀ e ∈ es, e.range.Within r
  apart : es.Pairwise fun a b => a.range.Apart b.range

theorem ApartWithin.perm {r : Span} {es fs : List Edit} (h : ApartWithin r es) (hp : es.Perm fs) :
    ApartWithin r fs where
  within e he := h.within e (hp.mem_iff.mpr he)
  apart := hp.pairwise h.apart fun hab => hab.symm

theorem apartWithin_nil (r : Span) : ApartWithin r [] := ⟨by simp, List.Pairwise.nil⟩

theorem apartWithin_delete (r : Span) : ApartWithin r [.delete r] :=
  ⟨by simp [Edit.range, Span.Within.refl], List.pairwise_singleton _ _⟩

theorem apartWithin_flatMap {r : Span} (parts : List (Span × List Edit))
    (hs : Siblings r (parts.map Prod.fst)) (h : ∀ p ∈ parts, ApartWithin p.1 p.2) :
    ApartWithin r (parts.flatMap Prod.snd) := by
  constructor
  · intro e he
    obtain ⟨p, hp, he⟩ := List.mem_flatMap.mp he
    exact ((h p hp).within e he).trans (hs.within _ (List.mem_map_of_mem hp))
  · refine List.pairwise_flatMap.mpr ⟨fun p hp => (h p hp).apart, ?_⟩
    refine (List.pairwise_map.mp hs.apart).imp_of_mem fun {p q} hp hq hpq e he f hf => ?_
    have hleft : e.range.Apart q.1 := hpq.of_within ((h p hp).within e he)
    exact (hleft.symm.of_within ((h q hq).within f hf)).symm

theorem apartWithin_own (s : Segment) : ApartWithin s.range (segmentPart s).own := by
  constructor
  · intro e he
    rw [range_of_mem_own he]
    exact Span.Within.refl _
  · simp only [segmentPart, Usage.replacements, List.filterMap_cons, List.filterMap_nil]
    split
    · exact List.Pairwise.nil
    · exact List.pairwise_singleton _ _

theorem replacements_eq_flatMap (body : Template Node) :
    Usage.replacements body = body.segments.flatMap fun s => (segmentPart s).own := by
  simp only [segmentPart, Usage.replacements, List.filterMap_eq_flatMap_toList]
  simp

section
variable {body : Template Node}

theorem apartWithin_nodes {r : Span} {ns : List Node} (hs : Siblings r (ns.map (·.range)))
    (h : ∀ n ∈ ns, ApartWithin n.range (editsIn names n)) :
    ApartWithin r (ns.flatMap (editsIn names)) := by
  have hparts := apartWithin_flatMap (ns.map fun n => (n.range, editsIn names n))
    (by simpa [Function.comp_def] using hs) fun p hp => by
      obtain ⟨n, hn, rfl⟩ := List.mem_map.mp hp
      exact h n hn
  simpa [List.flatMap_map] using hparts

theorem apartWithin_holes (hb : body.Fits text) (hfit : ∀ h ∈ body.holes, h.Fits text)
    (h : ∀ n ∈ body.holes, ApartWithin n.range (editsIn names n)) :
    ApartWithin body.range (body.holes.flatMap (editsIn names)) := by
  have hs := hb.siblings hfit
  refine apartWithin_nodes ⟨fun r hr => hs.within r (List.mem_append_right _ hr), ?_⟩ h
  exact (List.pairwise_append.mp hs.apart).2.1

theorem apartWithin_template (hb : body.Fits text) (hfit : ∀ h ∈ body.holes, h.Fits text)
    (h : ∀ n ∈ body.holes, ApartWithin n.range (editsIn names n)) :
    ApartWithin body.range (Usage.replacements body ++ body.holes.flatMap (editsIn names)) := by
  have hparts := apartWithin_flatMap (body.segments.map (fun s => (s.range, (segmentPart s).own)) ++
      body.holes.map fun n => (n.range, editsIn names n))
    (by simpa [Function.comp_def] using hb.siblings hfit) fun p hp => by
      rcases List.mem_append.mp hp with hp | hp
      · obtain ⟨s, hs, rfl⟩ := List.mem_map.mp hp
        exact apartWithin_own s
      · obtain ⟨n, hn, rfl⟩ := List.mem_map.mp hp
        exact h n hn
  simpa [replacements_eq_flatMap, List.flatMap_append, List.flatMap_map] using hparts

variable {r : Span} {tag : Node} {types : Option Node}

theorem apartWithin_around (h : (Node.tagged r tag types body).Fits text)
    (hT : ∀ t ∈ types, ApartWithin t.range (editsIn names t)) {tagEdits bodyEdits : List Edit}
    (htag : ApartWithin tag.range tagEdits) (hbody : ApartWithin body.range bodyEdits) :
    ApartWithin r (tagEdits ++ types.toList.flatMap (editsIn names) ++ bodyEdits) := by
  have hparts := apartWithin_flatMap ((tag.range, tagEdits) ::
      (types.toList.map (fun t => (t.range, editsIn names t)) ++ [(body.range, bodyEdits)]))
    (by simpa [Function.comp_def] using siblings_of_tagged h)
    (forall_mem_around.mpr ⟨htag, hT, hbody⟩)
  simpa [List.flatMap_append, List.flatMap_map] using hparts

theorem editsIn_tagged : editsIn names (.tagged r tag types body) =
    (Usage.of? names tag types body).toList.flatMap Usage.edits ++ (editsIn names tag ++
      types.toList.flatMap (editsIn names) ++ body.holes.flatMap (editsIn names)) := by
  rw [editsIn_eq_subnodes]
  simp [usage?, Node.subnodes]

theorem perm_editsIn_of_isComposed (h : isComposed tag body = true) :
    (editsIn names (.tagged r tag types body)).Perm
      (wrappedEdits names tag ++ types.toList.flatMap (editsIn names) ++ [.delete body.range]) := by
  obtain ⟨r', opening, types', inner, rfl, ho, hbody, hof⟩ := of?_of_isComposed names types h
  have htag : editsIn names (.tagged r' (.template opening) types' inner) =
      types'.toList.flatMap (editsIn names) ++ inner.holes.flatMap (editsIn names) := by
    rw [editsIn_tagged, editsIn_eq_subnodes (.template opening)]
    simp [usage?, Node.subnodes, ho, Usage.of?]
  rw [editsIn_tagged, hof, htag, hbody]
  refine List.perm_iff_count.mpr fun e => ?_
  simp only [Option.toList_some, List.flatMap_cons, List.flatMap_nil, Usage.edits, Usage.removals,
    Usage.body, wrappedEdits, Node.range, List.map_cons, List.map_nil, List.count_append,
    List.count_cons, List.count_nil]
  omega

theorem editsIn_of_isMarked (h : isMarked names tag = true)
    (hT : types.toList.flatMap (editsIn names) = []) :
    editsIn names (.tagged r tag types body) = .delete (tagSpan tag types) ::
      (Usage.replacements body ++ body.holes.flatMap (editsIn names)) := by
  obtain ⟨⟨r', name, rfl⟩, hof⟩ := of?_of_isMarked types body h
  rw [editsIn_tagged, hof, hT]
  simp [Usage.edits, Usage.removals, Usage.body, editsIn_identifier]

theorem editsIn_of_unmarked (hc : isComposed tag body = false) (hm : isMarked names tag = false) :
    editsIn names (.tagged r tag types body) = editsIn names tag ++
      types.toList.flatMap (editsIn names) ++ body.holes.flatMap (editsIn names) := by
  rw [editsIn_tagged, of?_eq_none types hc hm]
  rfl

end

structure NodeApart (names : List String) (n : Node) : Prop where
  alone : ApartWithin n.range (editsIn names n)
  wrapped : ApartWithin n.range (wrappedEdits names n)

/-- By induction over the tree: edits stand apart where no usage is taken out with another one. -/
theorem node_apart {n : Node} (h : n.Fits text)
    (hfree : ∀ k, n.Contains k → ¬ HidesUsage names k) : NodeApart names n := by
  induction n using Node.induction with
  | identifier r name => exact ⟨apartWithin_nil r, apartWithin_nil r⟩
  | template body ih =>
    obtain ⟨hb, hfit⟩ := fits_template.mp h
    have hholes := apartWithin_holes hb hfit fun n hn =>
      (ih n hn (hfit n hn) fun k hk => hfree k (.step hn hk)).alone
    have heq : editsIn names (.template body) = body.holes.flatMap (editsIn names) :=
      editsIn_eq_subnodes _
    rw [← heq] at hholes
    exact ⟨hholes, hholes⟩
  | importing d ih =>
    obtain ⟨-, hs, hfit⟩ := fits_importing.mp h
    have hattributes := apartWithin_nodes hs fun n hn =>
      (ih n hn (hfit n hn) fun k hk => hfree k (.step hn hk)).alone
    have heq : editsIn names (.importing d) = d.attributes.flatMap (editsIn names) :=
      editsIn_eq_subnodes _
    rw [← heq] at hattributes
    exact ⟨hattributes, hattributes⟩
  | other kind r children ih =>
    obtain ⟨-, hs, hfit⟩ := fits_other.mp h
    have hchildren := apartWithin_nodes hs fun n hn =>
      (ih n hn (hfit n hn) fun k hk => hfree k (.step hn hk)).alone
    have heq : editsIn names (.other kind r children) = children.flatMap (editsIn names) :=
      editsIn_eq_subnodes _
    rw [← heq] at hchildren
    exact ⟨hchildren, hchildren⟩
  | tagged r tag types body ihtag ihT ihholes =>
    obtain ⟨-, -, hftag, hfT, hb, hfit⟩ := fits_tagged.mp h
    have htag : NodeApart names tag :=
      ihtag hftag fun k hk => hfree k (.step List.mem_cons_self hk)
    have hT : ∀ t ∈ types, ApartWithin t.range (editsIn names t) := fun t ht =>
      (ihT t ht (hfT t ht) fun k hk => hfree k (.step
        (List.mem_cons_of_mem _ (List.mem_append_left _ (Option.mem_toList.mpr ht))) hk)).alone
    have hholes : ∀ n ∈ body.holes, ApartWithin n.range (editsIn names n) := fun n hn =>
      (ihholes n hn (hfit n hn) fun k hk => hfree k
        (.step (List.mem_cons_of_mem _ (List.mem_append_right _ hn)) hk)).alone
    have hnormal := apartWithin_template hb hfit hholes
    constructor
    · by_cases hc : isComposed tag body = true
      · have haround := apartWithin_around h hT htag.wrapped (apartWithin_delete body.range)
        exact haround.perm (perm_editsIn_of_isComposed hc).symm
      · by_cases hm : isMarked names tag = true
        · have hnone : types.toList.flatMap (editsIn names) = [] := by
            refine List.flatMap_eq_nil_iff.mpr fun t ht => editsIn_eq_nil fun hu => ?_
            obtain rfl := Option.mem_toList.mp ht
            exact hfree _ (.self _) ⟨hm, hu⟩
          obtain ⟨-, hs, -⟩ := tagSpan_fits h
          rw [editsIn_of_isMarked hm hnone]
          have hparts := apartWithin_flatMap
            [(tagSpan tag types, [.delete (tagSpan tag types)]), (body.range, _)] hs
            (List.forall_mem_cons.mpr
              ⟨apartWithin_delete _, List.forall_mem_singleton.mpr hnormal⟩)
          simpa [Node.range] using hparts
        · rw [editsIn_of_unmarked (Bool.not_eq_true _ ▸ hc) (Bool.not_eq_true _ ▸ hm)]
          exact apartWithin_around h hT htag.alone (apartWithin_holes hb hfit hholes)
    · have haround := apartWithin_around h hT (apartWithin_delete tag.range) hnormal
      refine haround.perm (List.perm_iff_count.mpr fun e => ?_)
      simp only [wrappedEdits, List.count_append, List.count_cons, List.count_nil]
      omega

def itemEdits (names : List String) (n : Node) : List Edit :=
  (if isRemoved n then [.delete n.range] else []) ++ editsIn names n

theorem isRemoved_iff {n : Node} :
    isRemoved n = true ↔ ∃ d, n = .importing d ∧ isMarkerImport d = true := by
  cases n <;> simp [isRemoved, importOf?]

theorem perm_edits (m : Module) :
    (edits m).Perm (m.items.flatMap (itemEdits (Marker.names m))) := by
  have hremoved : ((m.items.filterMap importOf?).filter isMarkerImport).map
      (fun d => Edit.delete d.range) =
      m.items.flatMap fun n => if isRemoved n then [.delete n.range] else [] := by
    induction m.items with
    | nil => rfl
    | cons n ns ih =>
      cases hn : importOf? n with
      | none =>
        have hr : isRemoved n = false := by simp [isRemoved, hn]
        simp [hn, hr, ih]
      | some d =>
        obtain rfl := importOf?_eq_some.mp hn
        have hr : isRemoved (.importing d) = isMarkerImport d := rfl
        by_cases hd : isMarkerImport d = true
        · simp [hn, hr, hd, ih, Node.range]
        · simp [hn, hr, hd, ih]
  have hedits : edits m =
      m.items.flatMap (fun n => if isRemoved n then [.delete n.range] else []) ++
      m.items.flatMap (editsIn (Marker.names m)) := by
    rw [← hremoved]
    simp [edits, usages, removedImports, imports, Usage.inNodes_eq, List.flatMap_assoc,
      Function.comp_def]
    rfl
  rw [hedits]
  exact List.flatMap_append_perm _ _ _

theorem not_holdsUsage_of_isRemoved {m : Module} (hfree : ¬ ModuleHidesUsage m)
    {d : ImportDeclaration Node} (hd : d ∈ imports m) :
    ¬ HoldsUsage (Marker.names m) (.importing d) := by
  rintro ⟨k, hk, hu⟩
  cases hk with
  | self => simp [usage?] at hu
  | step ha hk => exact hfree (Or.inr ⟨d, hd, _, ha, k, hk, hu⟩)

theorem module_apart {m : Module} (h : m.Fits text) (hfree : ¬ ModuleHidesUsage m) :
    (edits m).Pairwise fun a b => a.range.Apart b.range := by
  have hparts : ApartWithin ⟨0, Text.byteLength text⟩
      (m.items.flatMap (itemEdits (Marker.names m))) := by
    have hitems := apartWithin_flatMap
      (m.items.map fun n => (n.range, itemEdits (Marker.names m) n))
      (by simpa [Function.comp_def] using h.siblings) fun p hp => by
        obtain ⟨n, hn, rfl⟩ := List.mem_map.mp hp
        by_cases hr : isRemoved n = true
        · obtain ⟨d, rfl, hd⟩ := isRemoved_iff.mp hr
          have hnone := editsIn_eq_nil
            (not_holdsUsage_of_isRemoved hfree (mem_imports.mpr ⟨hn, hd⟩))
          simp only [itemEdits, hr, hnone, if_true, List.append_nil]
          exact apartWithin_delete _
        · have hnode := node_apart (h.items n hn) fun k hk hk' => hfree (Or.inl ⟨n, hn, k, hk, hk'⟩)
          simp only [itemEdits, hr]
          exact hnode.alone
    simpa [List.flatMap_map] using hitems
  exact (perm_edits m).symm.pairwise hparts.apart fun hab => hab.symm

theorem module_valid {m : Module} (h : m.Fits text) :
    ∀ e ∈ edits m, e.range.isValidIn text = true := by
  intro e he
  rcases mem_edits.mp he with ⟨d, hd, rfl⟩ | ⟨n, hn, he⟩
  · exact (h.items _ (mem_imports.mp hd).1).valid
  · obtain ⟨k, hk, u, hu, he⟩ := mem_editsIn_iff.mp he
    exact valid_usage ((h.items n hn).of_contains hk) hu e he

theorem not_accepted_of_moduleHidesUsage {m : Module} (h : m.Fits text)
    (hsolid : m.IsSolid) (hm : ModuleHidesUsage m) :
    ¬ Edit.Accepted text (edits m) := by
  rcases hm with ⟨n, hn, k, hk, hhides⟩ | ⟨d, hd, a, ha, hu⟩
  · cases k with
    | tagged r tag types body =>
      cases types with
      | none => exact hhides.elim
      | some t =>
        obtain ⟨hmark, hu⟩ := hhides
        have hfit := (h.items n hn).of_contains hk
        have ht : t ∈ (Node.tagged r tag (some t) body).subnodes := by simp [Node.subnodes]
        have htag : .delete (tagSpan tag (some t)) ∈ edits m := by
          obtain ⟨-, hof⟩ := of?_of_isMarked (some t) body hmark
          exact mem_edits.mpr (Or.inr ⟨n, hn, mem_editsIn_iff.mpr
            ⟨_, hk, _, hof, Usage.mem_edits_direct.mpr (Or.inl rfl)⟩⟩)
        refine not_accepted_of_holdsUsage (hfit.of_mem_subnodes ht)
          (fun j hj => hsolid n hn j (hk.trans (.step ht hj))) ((tagSpan_fits hfit).2.2 t rfl) hu
          (fun e he => ?_) htag
        obtain ⟨j, hj, u, hu, he⟩ := mem_editsIn_iff.mp he
        exact mem_edits.mpr (Or.inr ⟨n, hn, mem_editsIn_iff.mpr
          ⟨j, hk.trans (.step ht hj), u, hu, he⟩⟩)
    | _ => exact hhides.elim
  · have hitem := (mem_imports.mp hd).1
    have hfit := h.items _ hitem
    refine not_accepted_of_holdsUsage (hfit.of_mem_subnodes ha)
      (fun j hj => hsolid _ hitem j (.step ha hj)) (hfit.within_of_mem_subnodes ha) hu
      (fun e he => ?_) (mem_edits.mpr (Or.inl ⟨d, hd, rfl⟩))
    obtain ⟨j, hj, u, hu, he⟩ := mem_editsIn_iff.mp he
    exact mem_edits.mpr (Or.inr ⟨_, hitem, mem_editsIn_iff.mpr ⟨j, .step ha hj, u, hu, he⟩⟩)

/-- The edits of a tree are never invalid. They are refused for an overlap exactly if a usage is
taken out with the type arguments of another one or with a marker import, and otherwise stand apart
pair by pair. -/
theorem edits_overlap_iff {m : Module} (h : m.Fits text)
    (hsolid : m.IsSolid) (id : String)
    (resolution : Option Resolution) :
    (∀ r size, Edited.ofEdits id text (edits m) resolution ≠ .error (.invalid r size)) ∧
      ((∃ a b, Edited.ofEdits id text (edits m) resolution = .error (.overlapping a b)) ↔
        ModuleHidesUsage m) ∧
      (¬ ModuleHidesUsage m → (edits m).Pairwise fun a b => a.range.Apart b.range) := by
  have hvalid := module_valid h
  refine ⟨fun r size hr => ?_, ?_, module_apart h⟩
  · exact Edit.cut_ne_invalid hvalid r size (Edited.ofEdits_eq_error_iff.mp hr)
  · simp only [Edited.ofEdits_eq_error_iff, Edit.exists_overlapping_iff hvalid]
    constructor
    · intro hrefused
      by_contra hfree
      exact hrefused ⟨hvalid, module_apart h hfree⟩
    · exact not_accepted_of_moduleHidesUsage h hsolid

def hiddenText : List Char := "dedent<\x7b[dedent`a`]:0\x7d>` $\x7bdedent` b`\x7d`".toList

def hiddenUsage : Module :=
  ⟨[.other .statement ⟨0, 38⟩ [.tagged ⟨0, 38⟩ (.identifier ⟨0, 6⟩ "dedent")
    (some (.other .typeArguments ⟨6, 23⟩ [.other .type ⟨7, 22⟩ [.other .typeMember ⟨8, 21⟩
      [.other .computedKey ⟨8, 19⟩ [.tagged ⟨9, 18⟩ (.identifier ⟨9, 15⟩ "dedent") none
        ⟨⟨15, 18⟩, [⟨⟨16, 17⟩, ['a']⟩], []⟩], .other .type ⟨20, 21⟩ []]]]))
    ⟨⟨23, 38⟩, [⟨⟨24, 25⟩, [' ']⟩, ⟨⟨37, 37⟩, []⟩],
      [.tagged ⟨27, 37⟩ (.identifier ⟨27, 33⟩ "dedent") none
        ⟨⟨33, 37⟩, [⟨⟨34, 36⟩, [' ', 'b']⟩], []⟩]⟩]]⟩

theorem edits_overlap_hiddenUsage : hiddenUsage.Fits hiddenText ∧
    hiddenUsage.IsSolid ∧ ModuleHidesUsage hiddenUsage ∧
    ∃ a b, Edited.ofEdits "a.ts" hiddenText (edits hiddenUsage) none =
      .error (.overlapping a b) := by
  have hfit : hiddenUsage.Fits hiddenText := by decide +kernel
  have hsolid : hiddenUsage.IsSolid := by decide +kernel
  have hhides : ModuleHidesUsage hiddenUsage := by decide +kernel
  exact ⟨hfit, hsolid, hhides, (edits_overlap_iff hfit hsolid "a.ts" none).2.1.mpr hhides⟩

end Outdent.Marker
