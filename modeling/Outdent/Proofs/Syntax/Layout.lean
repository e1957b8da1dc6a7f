import Outdent.Proofs.Edit.Order
import Outdent.Syntax.Tree
/-! # Trees that fit a text

A tree fits a text if the bytes of every node lie on boundaries and within its parent, siblings
stand apart, a template alternates segments and holes, and a segment is written as the text has
it. -/
namespace Outdent

def Span.Within (a b : Span) : Prop := b.start ≤ a.start ∧ a.stop ≤ b.stop

instance (a b : Span) : Decidable (a.Within b) := inferInstanceAs (Decidable (_ ∧ _))

theorem Span.Within.refl (a : Span) : a.Within a := ⟨Nat.le_refl _, Nat.le_refl _⟩

theorem Span.Within.trans {a b c : Span} (h : a.Within b) (k : b.Within c) : a.Within c :=
  ⟨Nat.le_trans k.1 h.1, Nat.le_trans h.2 k.2⟩

theorem Span.Apart.of_within {a b c : Span} (h : b.Apart c) (ha : a.Within b) : a.Apart c := by
  unfold Span.Within at ha
  unfold Span.Apart at *
  omega

namespace Syntax

/-- Spans within a parent that stand apart from each other. -/
structure Siblings (parent : Span) (spans : List Span) : Prop where
  within : ∀ r ∈ spans, r.Within parent
  apart : spans.Pairwise Span.Apart

instance (parent : Span) (spans : List Span) : Decidable (Siblings parent spans) :=
  decidable_of_iff ((∀ r ∈ spans, r.Within parent) ∧ spans.Pairwise Span.Apart)
    ⟨fun h => ⟨h.1, h.2⟩, fun h => ⟨h.within, h.apart⟩⟩

def Sequence (start stop : Nat) (spans : List Span) : Prop :=
  Span.Follows start (spans ++ [⟨stop, stop⟩])

instance (start stop : Nat) (spans : List Span) : Decidable (Sequence start stop spans) :=
  inferInstanceAs (Decidable (Span.Follows _ _))

def interleave : List Span → List Span → List Span
  | s :: ss, h :: hs => s :: h :: interleave ss hs
  | ss, [] => ss
  | [], hs => hs

theorem perm_interleave (ss hs : List Span) : (interleave ss hs).Perm (ss ++ hs) := by
  fun_induction interleave ss hs with
  | case1 s ss h hs ih => exact (List.Perm.cons h ih |>.trans List.perm_middle.symm).cons s
  | case2 ss => simp
  | case3 hs => simp

/-- Spans in sequence are siblings, in whatever order they are listed. -/
theorem Sequence.siblings {parent : Span} {rs spans : List Span}
    (h : Sequence parent.start parent.stop rs) (forward : ∀ r ∈ rs, r.start ≤ r.stop)
    (hp : rs.Perm spans) : Siblings parent spans := by
  have forward' : ∀ r ∈ rs ++ [⟨parent.stop, parent.stop⟩], r.start ≤ r.stop := by
    intro r hr
    rcases List.mem_append.mp hr with hr | hr
    · exact forward r hr
    · exact List.mem_singleton.mp hr ▸ Nat.le_refl _
  obtain ⟨hrs, -, hend⟩ := List.pairwise_append.mp (h.pairwise forward')
  constructor
  · intro r hr
    have hr := hp.mem_iff.mpr hr
    exact ⟨h.position_le forward' r (List.mem_append_left _ hr),
      hend r hr _ (List.mem_singleton.mpr rfl)⟩
  · exact hp.pairwise (hrs.imp Or.inl) fun hab => hab.symm

/-- Segments and holes alternate between the ends of the template, and a segment is written as the
text has it. -/
structure Template.Fits (text : List Char) (body : Template Node) : Prop where
  valid : body.range.isValidIn text = true
  alternates : body.segments.length = body.holes.length + 1 ∧
    Sequence body.range.start body.range.stop
      (interleave (body.segments.map (·.range)) (body.holes.map (·.range)))
  segments : ∀ s ∈ body.segments, s.range.isValidIn text = true ∧
    s.raw = Text.slice s.range.start s.range.stop text

instance (text : List Char) (body : Template Node) : Decidable (body.Fits text) :=
  decidable_of_iff (body.range.isValidIn text = true ∧
      (body.segments.length = body.holes.length + 1 ∧
        Sequence body.range.start body.range.stop
          (interleave (body.segments.map (·.range)) (body.holes.map (·.range)))) ∧
      ∀ s ∈ body.segments, s.range.isValidIn text = true ∧
        s.raw = Text.slice s.range.start s.range.stop text)
    ⟨fun h => ⟨h.1, h.2.1, h.2.2⟩, fun h => ⟨h.valid, h.alternates, h.segments⟩⟩

mutual

def Node.Fits (text : List Char) : Node → Prop
  | .identifier r _ => r.isValidIn text = true
  | .template ⟨r, segments, holes⟩ => Template.Fits text ⟨r, segments, holes⟩ ∧ AllFit text holes
  | .tagged r tag typeArguments ⟨r', segments, holes⟩ =>
    r.isValidIn text = true ∧
      Sequence r.start r.stop (tag.range :: (typeArguments.toList.map (·.range) ++ [r'])) ∧
      tag.Fits text ∧ AnyFits text typeArguments ∧
      Template.Fits text ⟨r', segments, holes⟩ ∧ AllFit text holes
  | .importing ⟨r, _, _, attributes⟩ =>
    r.isValidIn text = true ∧ Siblings r (attributes.map (·.range)) ∧ AllFit text attributes
  | .other _ r children =>
    r.isValidIn text = true ∧ Siblings r (children.map (·.range)) ∧ AllFit text children

def AllFit (text : List Char) : List Node → Prop
  | [] => True
  | n :: ns => n.Fits text ∧ AllFit text ns

def AnyFits (text : List Char) : Option Node → Prop
  | none => True
  | some n => n.Fits text

end

mutual

instance decidableFits (text : List Char) : (n : Node) → Decidable (n.Fits text)
  | .identifier _ _ => inferInstanceAs (Decidable (_ = true))
  | .template ⟨_, _, holes⟩ =>
    have := decidableAllFit text holes
    inferInstanceAs (Decidable (_ ∧ _))
  | .tagged _ tag typeArguments ⟨_, _, holes⟩ =>
    have := decidableFits text tag
    have := decidableAnyFits text typeArguments
    have := decidableAllFit text holes
    inferInstanceAs (Decidable (_ ∧ _ ∧ _ ∧ _ ∧ _ ∧ _))
  | .importing ⟨_, _, _, attributes⟩ =>
    have := decidableAllFit text attributes
    inferInstanceAs (Decidable (_ ∧ _ ∧ _))
  | .other _ _ children =>
    have := decidableAllFit text children
    inferInstanceAs (Decidable (_ ∧ _ ∧ _))

instance decidableAllFit (text : List Char) : (ns : List Node) → Decidable (AllFit text ns)
  | [] => isTrue trivial
  | n :: ns =>
    have := decidableFits text n
    have := decidableAllFit text ns
    inferInstanceAs (Decidable (_ ∧ _))

instance decidableAnyFits (text : List Char) : (n : Option Node) → Decidable (AnyFits text n)
  | none => isTrue trivial
  | some n => decidableFits text n

end

/-- The parts of a tagged template in a row: a tag, the type arguments if there are any, and a
template. -/
theorem forall_mem_around {α β : Type} {P : α → Prop} {a b : α} {o : Option β} {f : β → α} :
    (∀ x ∈ a :: (o.toList.map f ++ [b]), P x) ↔ P a ∧ (∀ t ∈ o, P (f t)) ∧ P b := by
  cases o <;> simp

theorem allFit_iff {text : List Char} {ns : List Node} :
    AllFit text ns ↔ ∀ n ∈ ns, n.Fits text := by
  induction ns with
  | nil => simp [AllFit]
  | cons n ns ih => simp [AllFit, ih]

theorem anyFits_iff {text : List Char} {n : Option Node} :
    AnyFits text n ↔ ∀ m ∈ n, m.Fits text := by
  cases n <;> simp [AnyFits]

theorem fits_template {text : List Char} {body : Template Node} :
    (Node.template body).Fits text ↔ body.Fits text ∧ ∀ h ∈ body.holes, h.Fits text := by
  cases body
  simp only [Node.Fits, allFit_iff]

theorem fits_tagged {text : List Char} {r : Span} {tag : Node} {typeArguments : Option Node}
    {body : Template Node} :
    (Node.tagged r tag typeArguments body).Fits text ↔ r.isValidIn text = true ∧
      Sequence r.start r.stop
        (tag.range :: (typeArguments.toList.map (·.range) ++ [body.range])) ∧
      tag.Fits text ∧ (∀ t ∈ typeArguments, t.Fits text) ∧ body.Fits text ∧
      ∀ h ∈ body.holes, h.Fits text := by
  cases body
  simp only [Node.Fits, allFit_iff, anyFits_iff]

theorem fits_importing {text : List Char} {d : ImportDeclaration Node} :
    (Node.importing d).Fits text ↔ d.range.isValidIn text = true ∧
      Siblings d.range (d.attributes.map (·.range)) ∧ ∀ a ∈ d.attributes, a.Fits text := by
  cases d
  simp only [Node.Fits, allFit_iff]

theorem fits_other {text : List Char} {kind : Kind} {r : Span} {children : List Node} :
    (Node.other kind r children).Fits text ↔ r.isValidIn text = true ∧
      Siblings r (children.map (·.range)) ∧ ∀ c ∈ children, c.Fits text := by
  simp only [Node.Fits, allFit_iff]

theorem Node.Fits.valid {text : List Char} {n : Node} (h : n.Fits text) :
    n.range.isValidIn text = true := by
  cases n with
  | identifier r name => exact h
  | template body => exact (fits_template.mp h).1.valid
  | tagged r tag typeArguments body => exact (fits_tagged.mp h).1
  | importing d => exact (fits_importing.mp h).1
  | other kind r children => exact (fits_other.mp h).1

theorem Template.Fits.siblings {text : List Char} {body : Template Node} (h : body.Fits text)
    (holes : ∀ n ∈ body.holes, n.Fits text) :
    Siblings body.range (body.segments.map (·.range) ++ body.holes.map (·.range)) := by
  refine h.alternates.2.siblings ?_ (perm_interleave _ _)
  intro r hr
  have hr := (perm_interleave _ _).mem_iff.mp hr
  rcases List.mem_append.mp hr with hr | hr
  · obtain ⟨s, hs, rfl⟩ := List.mem_map.mp hr
    exact (Span.isValidIn_iff.mp (h.segments s hs).1).1
  · obtain ⟨n, hn, rfl⟩ := List.mem_map.mp hr
    exact (Span.isValidIn_iff.mp (holes n hn).valid).1

theorem siblings_of_tagged {text : List Char} {r : Span} {tag : Node} {typeArguments : Option Node}
    {body : Template Node} (h : (Node.tagged r tag typeArguments body).Fits text) :
    Siblings r (tag.range :: (typeArguments.toList.map (·.range) ++ [body.range])) := by
  obtain ⟨-, hseq, ht, hT, hb, -⟩ := fits_tagged.mp h
  refine hseq.siblings (forall_mem_around.mpr ⟨?_, fun t ht' => ?_, ?_⟩) (List.Perm.refl _)
  · exact (Span.isValidIn_iff.mp ht.valid).1
  · exact (Span.isValidIn_iff.mp (hT t ht').valid).1
  · exact (Span.isValidIn_iff.mp hb.valid).1

structure Module.Fits (text : List Char) (m : Module) : Prop where
  siblings : Siblings ⟨0, Text.byteLength text⟩ (m.items.map (·.range))
  items : ∀ n ∈ m.items, n.Fits text

instance (text : List Char) (m : Module) : Decidable (m.Fits text) :=
  decidable_of_iff (Siblings ⟨0, Text.byteLength text⟩ (m.items.map (·.range)) ∧
      ∀ n ∈ m.items, n.Fits text) ⟨fun h => ⟨h.1, h.2⟩, fun h => ⟨h.siblings, h.items⟩⟩

/-- Induction over trees, where a node may use what holds of all nodes right below it. -/
@[elab_as_elim]
theorem Node.induction {motive : Node → Prop}
    (identifier : ∀ r name, motive (.identifier r name))
    (template : ∀ body : Template Node, (∀ h ∈ body.holes, motive h) → motive (.template body))
    (tagged : ∀ r tag typeArguments (body : Template Node), motive tag →
      (∀ t ∈ typeArguments, motive t) → (∀ h ∈ body.holes, motive h) →
      motive (.tagged r tag typeArguments body))
    (importing : ∀ d : ImportDeclaration Node, (∀ a ∈ d.attributes, motive a) →
      motive (.importing d))
    (other : ∀ kind r children, (∀ c ∈ children, motive c) → motive (.other kind r children))
    (n : Node) : motive n :=
  @Node.rec motive (fun body => ∀ h ∈ body.holes, motive h) (fun m => ∀ t ∈ m, motive t)
    (fun d => ∀ a ∈ d.attributes, motive a) (fun ns => ∀ m ∈ ns, motive m)
    identifier template tagged importing other
    (fun _ _ _ ih => ih) (by simp) (by simp) (fun _ _ _ _ ih => ih) (by simp)
    (fun _ _ hn ih => by simpa using ⟨hn, ih⟩) n

end Syntax

end Outdent
