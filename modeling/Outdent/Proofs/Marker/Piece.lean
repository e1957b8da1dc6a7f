import Outdent.Proofs.Edit.Queueing
import Outdent.Proofs.Marker.Rendering
/-! # Stretches of a text put anew

A text is laid out as stretches with text between them. Where the stretches of a node are those of
its children, the text of the node is the same text between what comes in place of them. -/
namespace Outdent.Marker.Reference

open Syntax

/-- A stretch of text with what comes in its place, and the text up to the next stretch. -/
structure Piece where
  old : List Char
  new : List Char
  behind : List Char

namespace Piece

def before (pieces : List Piece) : List Char := pieces.flatMap fun x => x.old ++ x.behind

def after (pieces : List Piece) : List Char := pieces.flatMap fun x => x.new ++ x.behind

/-- The spans of stretches with what comes in their place, from an offset on. -/
def parts (q : Nat) : List Piece → List (Span × List Char)
  | [] => []
  | x :: pieces => (⟨q, q + Text.byteLength x.old⟩, x.new) ::
      parts (q + Text.byteLength x.old + Text.byteLength x.behind) pieces

end Piece

def Stands (text : List Char) (p : Nat) (cs : List Char) : Prop :=
  ∃ before after, text = before ++ cs ++ after ∧ Text.byteLength before = p

variable {text cs xs ys : List Char} {p : Nat}

theorem Stands.slice (h : Stands text p cs) :
    Text.slice p (p + Text.byteLength cs) text = cs := by
  obtain ⟨before, after, rfl, rfl⟩ := h
  exact Text.slice_middle before cs after

theorem Stands.left (h : Stands text p (xs ++ ys)) : Stands text p xs := by
  obtain ⟨before, after, rfl, hp⟩ := h
  exact ⟨before, ys ++ after, by simp, hp⟩

theorem Stands.right (h : Stands text p (xs ++ ys)) :
    Stands text (p + Text.byteLength xs) ys := by
  obtain ⟨before, after, rfl, rfl⟩ := h
  exact ⟨before ++ xs, after, by simp, by simp⟩

theorem Stands.tail {c : Char} (h : Stands text p (c :: cs)) :
    Stands text (p + c.utf8Size) cs := by
  obtain ⟨before, after, rfl, rfl⟩ := h
  exact ⟨before ++ [c], after, by simp, by simp [Text.byteLength]⟩

theorem fill_parts {lead : List Char} {pieces : List Piece}
    (h : Stands text p (lead ++ Piece.before pieces)) :
    fill text p (p + Text.byteLength (lead ++ Piece.before pieces))
      (Piece.parts (p + Text.byteLength lead) pieces) = lead ++ Piece.after pieces := by
  induction pieces generalizing p lead with
  | nil => exact h.slice
  | cons x pieces ih =>
    have hbefore : Piece.before (x :: pieces) = x.old ++ (x.behind ++ Piece.before pieces) := by
      simp [Piece.before]
    rw [hbefore] at h ⊢
    have hrest := ih h.right.right
    rw [Piece.parts, fill, h.left.slice]
    simp only [Text.byteLength_append, ← Nat.add_assoc] at hrest ⊢
    rw [hrest]
    simp [Piece.after]

theorem le_start_of_mem_parts {pieces : List Piece} {q : Nat} {x : Span × List Char}
    (h : x ∈ Piece.parts q pieces) : q ≤ x.1.start := by
  induction pieces generalizing q with
  | nil => contradiction
  | cons y pieces ih =>
    rcases List.mem_cons.mp h with rfl | h
    · exact Nat.le_refl _
    · have := ih h
      omega

theorem pairwise_parts {pieces : List Piece} (h : ∀ x ∈ pieces, x.old ++ x.behind ≠ [])
    (q : Nat) : (Piece.parts q pieces).Pairwise fun x y => x.1.start < y.1.start := by
  induction pieces generalizing q with
  | nil => exact List.Pairwise.nil
  | cons x pieces ih =>
    have hrest := ih fun y hy => h y (List.mem_cons_of_mem _ hy)
    refine List.pairwise_cons.mpr ⟨fun y hy => ?_, hrest _⟩
    have hle := le_start_of_mem_parts hy
    have hpositive : Text.byteLength (x.old ++ x.behind) ≠ 0 :=
      fun hzero => h x List.mem_cons_self (Text.eq_nil_of_byteLength hzero)
    rw [Text.byteLength_append] at hpositive
    simp only
    omega

/-- Parts that stand in order are filled in as they stand, in whatever order they are listed. -/
theorem restate_parts (lead : List Char) (pieces : List Piece)
    (hpieces : ∀ x ∈ pieces, x.old ++ x.behind ≠ [])
    (hcs : lead ++ Piece.before pieces = cs) (h : Stands text p cs)
    {parts : List (Span × List Char)}
    (hparts : parts.Perm (Piece.parts (p + Text.byteLength lead) pieces)) :
    restate text ⟨p, p + Text.byteLength cs⟩ parts = lead ++ Piece.after pieces := by
  subst hcs
  have hstarts := pairwise_parts hpieces (p + Text.byteLength lead)
  let before : Span × List Char → Span × List Char → Prop := fun x y => x.1.le y.1 = true
  have hsort : parts.insertionSort before = Piece.parts (p + Text.byteLength lead) pieces := by
    have hperm := (List.perm_insertionSort before parts).trans hparts
    refine hperm.eq_of_pairwise (fun x y hx hy hxy hyx => ?_) (List.pairwise_insertionSort _ _)
      (hstarts.imp fun hlt => by simp [before, Span.le, hlt])
    have hspan : x.1 = y.1 := Span.le_antisymm hxy hyx
    by_contra hne
    have hsymm : Std.Symm fun x y : Span × List Char => x.1.start ≠ y.1.start :=
      ⟨fun _ _ h => Ne.symm h⟩
    exact (hstarts.imp Nat.ne_of_lt).forall (hperm.mem_iff.mp hx) hy hne (by rw [hspan])
  rw [restate, hsort, fill_parts h]

end Outdent.Marker.Reference
