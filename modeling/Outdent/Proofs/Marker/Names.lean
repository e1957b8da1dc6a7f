import Mathlib.Data.String.Basic
import Outdent.Proofs.Marker.UsageEdits
import Outdent.Proofs.Syntax.Binding
/-! # The names of the marker

The marker goes by its own name and by those that imports of its module give to it. These names
depend on what is imported, and not on where in a module that is done or on what else is imported,
and a tagged template is a usage or none by them alone. -/
namespace Outdent.Marker

open Outdent.Syntax Reference

/-- What has to be taken from a module to get the marker: its default, or what goes by one of two
names there. -/
inductive TakesTag : Imported → Prop where
  | byDefault : TakesTag .byDefault
  | tag : TakesTag (.named "dedent")
  | default : TakesTag (.named "default")

/-- Whether some import of the marker's module at the top of a script gives a name to the marker. -/
def IsAlias (m : Module) (name : String) : Prop :=
  ∃ d, .importing d ∈ m.items ∧ d.source = "rollup-plugin-dedent" ∧
    ∃ b ∈ d.bindings, TakesTag b.imported ∧ b.localName = name

/-- A module with the items of another one in whatever order, and with imports of other modules. -/
structure Rearranged (m m' : Module) (others : List (ImportDeclaration Node)) : Prop where
  items : m'.items.Perm (m.items ++ others.map .importing)
  foreign : ∀ d ∈ others, d.source ≠ "rollup-plugin-dedent"

variable {m m' : Module} {names names' : List String} {others : List (ImportDeclaration Node)}

theorem isTag_iff {i : Imported} : isTag i = true ↔ TakesTag i := by
  constructor
  · intro h
    cases i with
    | byDefault => exact .byDefault
    | named name =>
      simp only [isTag, tagName, Bool.or_eq_true, beq_iff_eq] at h
      rcases h with rfl | rfl
      · exact .tag
      · exact .default
    | everything => simp [isTag] at h
  · intro h
    cases h with
    | byDefault => rfl
    | tag => rfl
    | default => rfl

theorem takesTag_named_iff {name : String} :
    TakesTag (.named name) ↔ name = "dedent" ∨ name = "default" := by
  rw [← isTag_iff]
  simp [isTag, tagName]

theorem mem_names {name : String} : name ∈ Marker.names m ↔ name = "dedent" ∨ IsAlias m name := by
  simp only [Marker.names, aliases, namesIn, List.mem_cons, List.mem_flatMap, List.mem_map,
    List.mem_filter, mem_imports, isMarkerImport, beq_iff_eq, isTag_iff, IsAlias, and_assoc,
    tagName, moduleName]

theorem mem_insertName {name n : String} {ns : List String} :
    n ∈ insertName name ns ↔ n = name ∨ n ∈ ns := by
  induction ns with
  | nil => simp [insertName]
  | cons k ns ih =>
    simp only [insertName]
    split
    · exact List.mem_cons
    · split
      · next heq =>
        rw [heq]
        simp
      · rw [List.mem_cons, ih, List.mem_cons]
        exact or_left_comm

theorem pairwise_insertName (name : String) {ns : List String} (h : ns.Pairwise (· < ·)) :
    (insertName name ns).Pairwise (· < ·) := by
  induction ns with
  | nil => exact List.pairwise_singleton _ _
  | cons k ns ih =>
    obtain ⟨hk, hns⟩ := List.pairwise_cons.mp h
    simp only [insertName]
    split
    · next hlt =>
      refine List.pairwise_cons.mpr ⟨?_, h⟩
      intro n hn
      rcases List.mem_cons.mp hn with rfl | hn
      · exact hlt
      · exact String.lt_trans hlt (hk n hn)
    · next hge =>
      split
      · exact h
      · next hne =>
        refine List.pairwise_cons.mpr ⟨?_, ih hns⟩
        intro n hn
        rcases mem_insertName.mp hn with rfl | hn
        · exact lt_of_le_of_ne (not_lt.mp hge) (Ne.symm hne)
        · exact hk n hn

theorem mem_foldr_insertName {n : String} {ns : List String} :
    n ∈ ns.foldr insertName [] ↔ n ∈ ns := by
  induction ns with
  | nil => rfl
  | cons k ns ih => rw [List.foldr_cons, mem_insertName, ih, List.mem_cons]

theorem pairwise_foldr_insertName (ns : List String) :
    (ns.foldr insertName []).Pairwise (· < ·) := by
  induction ns with
  | nil => exact List.Pairwise.nil
  | cons k ns ih => exact pairwise_insertName k ih

theorem foldr_insertName_congr (h : ∀ name, name ∈ names ↔ name ∈ names') :
    names.foldr insertName [] = names'.foldr insertName [] := by
  have hsorted := pairwise_foldr_insertName names
  have hsorted' := pairwise_foldr_insertName names'
  have hperm : (names.foldr insertName []).Perm (names'.foldr insertName []) := by
    refine (List.perm_ext_iff_of_nodup (hsorted.imp ne_of_lt) (hsorted'.imp ne_of_lt)).mpr ?_
    intro name
    rw [mem_foldr_insertName, mem_foldr_insertName, h]
  exact hperm.eq_of_pairwise (fun a b _ _ hab hba => absurd hab (lt_asymm hba)) hsorted hsorted'

theorem removedImports_eq (m : Module) : removedImports m = m.items.filterMap fun
    | .importing d => if d.source = "rollup-plugin-dedent" then some d.range else none
    | _ => none := by
  rw [removedImports, imports, List.filter_filterMap, List.map_filterMap]
  refine List.filterMap_congr fun n _ => ?_
  cases n with
  | importing d =>
    by_cases hd : d.source = "rollup-plugin-dedent"
    · simp [importOf?, isMarkerImport, moduleName, hd]
    · simp [importOf?, isMarkerImport, moduleName, hd]
  | _ => rfl

theorem sublist_removedImports (m : Module) :
    (removedImports m).Sublist (m.items.map Node.range) := by
  have hfiltered : removedImports m = (m.items.filter isRemoved).map Node.range := by
    rw [removedImports_eq, ← List.filterMap_eq_map, List.filterMap_filter]
    refine List.filterMap_congr fun n _ => ?_
    cases n with
    | importing d => simp [isRemoved, importOf?, isMarkerImport, moduleName, Node.range]
    | _ => rfl
  rw [hfiltered]
  exact List.filter_sublist.map Node.range

theorem Rearranged.isAlias_iff (h : Rearranged m m' others) {name : String} :
    IsAlias m' name ↔ IsAlias m name := by
  constructor
  · rintro ⟨d, hd, hsource, hb⟩
    rcases List.mem_append.mp (h.items.mem_iff.mp hd) with hd | hd
    · exact ⟨d, hd, hsource, hb⟩
    · obtain ⟨d', hd', heq⟩ := List.mem_map.mp hd
      obtain rfl : d' = d := Node.importing.inj heq
      exact absurd hsource (h.foreign d' hd')
  · rintro ⟨d, hd, hsource, hb⟩
    exact ⟨d, h.items.mem_iff.mpr (List.mem_append_left _ hd), hsource, hb⟩

theorem Rearranged.mem_names_iff (h : Rearranged m m' others) {name : String} :
    name ∈ Marker.names m' ↔ name ∈ Marker.names m := by
  rw [mem_names, mem_names, h.isAlias_iff]

theorem of?_congr (h : ∀ name, name ∈ names' ↔ name ∈ names) (tag : Node)
    (typeArguments : Option Node) (body : Template Node) :
    Usage.of? names' tag typeArguments body = Usage.of? names tag typeArguments body := by
  cases tag with
  | identifier r name =>
    have hcontains : names'.contains name = names.contains name := by
      rw [Bool.eq_iff_iff, List.contains_iff_mem, List.contains_iff_mem, h]
    simp only [Usage.of?, hcontains]
  | tagged r opening types inner => cases opening <;> rfl
  | _ => rfl

theorem usage?_congr (h : ∀ name, name ∈ names' ↔ name ∈ names) (n : Node) :
    usage? names' n = usage? names n := by
  cases n with
  | tagged r tag typeArguments body => exact of?_congr h tag typeArguments body
  | _ => rfl

theorem inNode_congr (h : ∀ name, name ∈ names' ↔ name ∈ names) (n : Node) :
    Usage.inNode names' n = Usage.inNode names n := by
  induction n using Node.subnodes_induction with
  | node n ih =>
    rw [inNode_eq_subnodes, inNode_eq_subnodes, usage?_congr h, List.flatMap_congr ih]

structure ResolvesImports (m : Module) : Prop where
  recognised : ∀ name, (Marker.names m).contains name = true ↔ name = "dedent" ∨ IsAlias m name
  sorted : (sortedNames m).Pairwise (· < ·) ∧
    ∀ name, name ∈ sortedNames m ↔ name = "dedent" ∨ IsAlias m name
  /-- All imports of the marker's module are removed, whatever they bind. -/
  removed : removedImports m = m.items.filterMap fun
    | .importing d => if d.source = "rollup-plugin-dedent" then some d.range else none
    | _ => none
  inOrder : (removedImports m).Sublist (m.items.map Node.range)
  /-- Neither the order of the items nor imports of other modules change a name or a usage. -/
  rearranged : ∀ m' others, Rearranged m m' others → sortedNames m' = sortedNames m ∧
    (∀ n, usage? (Marker.names m') n = usage? (Marker.names m) n) ∧
    (usages m').Perm (usages m ++ others.flatMap fun d =>
      d.attributes.flatMap (Usage.inNode (Marker.names m)))
  /-- What is taken by a binding in braces is what its first name says, a word or a string; without
  a second name it is the local name. -/
  written : ∀ typesOnly s s' b, Grammar.importItem typesOnly s = (.ok b, s') → ∃ item s₁,
    Grammar.exchangeItem Grammar.boundName s = (.ok item, s₁) ∧
    (TakesTag b.imported ↔ item.outer.text = "dedent" ∨ item.outer.text = "default") ∧
    b.localName = (item.inner.getD item.outer).text

theorem Rearranged.usages_perm (h : Rearranged m m' others) :
    (usages m').Perm (usages m ++ others.flatMap fun d =>
      d.attributes.flatMap (Usage.inNode (Marker.names m))) := by
  have hsame : Usage.inNode (Marker.names m') = Usage.inNode (Marker.names m) :=
    funext (inNode_congr fun _ => h.mem_names_iff)
  have hothers : (others.map Node.importing).flatMap (Usage.inNode (Marker.names m)) =
      others.flatMap fun d => d.attributes.flatMap (Usage.inNode (Marker.names m)) := by
    rw [List.flatMap_map]
    exact List.flatMap_congr fun d _ => Usage.inNode_importing d
  rw [usages, usages, Usage.inNodes_eq, Usage.inNodes_eq, hsame, ← hothers, ← List.flatMap_append]
  exact h.items.flatMap_right _

/-- A name is recognised exactly if it is the marker's own or an import gives it to the marker,
exactly the imports of the marker's module are removed, and neither depends on the order of the
items or on other imports. -/
theorem imports_resolved (m : Module) : ResolvesImports m := by
  have hmem : ∀ name, name ∈ sortedNames m ↔ name = "dedent" ∨ IsAlias m name := by
    intro name
    rw [sortedNames, mem_foldr_insertName, mem_names]
  constructor
  · intro name
    rw [List.contains_iff_mem, mem_names]
  · exact ⟨pairwise_foldr_insertName (Marker.names m), hmem⟩
  · exact removedImports_eq m
  · exact sublist_removedImports m
  · intro m' others h
    have hnames : ∀ name, name ∈ Marker.names m' ↔ name ∈ Marker.names m :=
      fun _ => h.mem_names_iff
    exact ⟨foldr_insertName_congr hnames, usage?_congr hnames, h.usages_perm⟩
  · intro typesOnly s s' b h
    obtain ⟨item, s₁, hitem, rfl, -⟩ := Grammar.importItem_eq_ok h
    exact ⟨item, s₁, hitem, takesTag_named_iff, rfl⟩

end Outdent.Marker
