import Outdent.Proofs.Segment.Escapes
import Outdent.Proofs.Written.Rewriting
/-! # Scripts that stay readable

Where no backslash stands in a tagged template and semicolons close the statements, the rewritten
script keeps to the rules of writing scripts. -/
namespace Outdent.Segment

open Syntax

theorem badEscape_read_of_notMem {raw : List Char} (h : IsTemplateText raw) (hraw : '\\' ∉ raw)
    (n : Nat) : (TemplateText.read 0 raw n).badEscape = none := by
  induction raw generalizing n with
  | nil => rfl
  | cons c cs ih =>
    obtain ⟨hslash, hcs⟩ := not_or.mp (mt List.mem_cons.mpr hraw)
    obtain ⟨hquote, hdollar, hrest⟩ := h.of_cons (Ne.symm hslash)
    rw [TemplateText.badEscape_read_plain cs (Ne.symm hslash) hquote hdollar]
    exact ih hrest hcs _

/-- Text without a backslash is a segment when it is normalised, with a tag or without. -/
theorem isSegment_normalize {raw : List Char} (h : IsTemplateText raw) (hraw : '\\' ∉ raw)
    (isTagged : Bool) : IsSegment isTagged (normalize raw) := by
  obtain ⟨hdelimited, hbackslash⟩ := run_trimEnd h
  rw [← run_normalize] at hdelimited hbackslash
  have htext : IsTemplateText (normalize raw) := by
    refine ⟨hdelimited, fun hends => ?_⟩
    obtain ⟨front, blank, blanks, rfl, -, -⟩ := hbackslash.mp hends
    simp at hraw
  have hnormal : '\\' ∉ normalize raw := mt (fun h => (normalize_sublist raw).subset h) hraw
  exact ⟨htext, Or.inr (badEscape_read_of_notMem htext hnormal 0)⟩

end Outdent.Segment

namespace Outdent.Written

open Syntax

mutual

def Expression.isUnescaped : Expression → Bool
  | .named _ | .quoted _ => true
  | .template body => body.isUnescaped false
  | .tagged tag body => tag.isUnescaped && body.isUnescaped true
  | .member object _ _ => object.isUnescaped
  | .call callee given => callee.isUnescaped && given.isUnescaped
  | .spaced _ inside _ => inside.isUnescaped

def Body.isUnescaped (isTagged : Bool) : Body → Bool
  | .last raw => !(isTagged && raw.contains '\\')
  | .hole raw inside rest =>
    !(isTagged && raw.contains '\\') && inside.isUnescaped && rest.isUnescaped isTagged

def Arguments.isUnescaped : Arguments → Bool
  | .closed _ => true
  | .last inside => inside.isUnescaped
  | .more inside rest => inside.isUnescaped && rest.isUnescaped

end

def Statement.isUnescaped : Statement → Bool
  | .imported _ _ _ _ _ => true
  | .constant _ _ _ value => value.isUnescaped
  | .plain e => e.isUnescaped

/-- Whether semicolons close all statements, and no backslash stands in a tagged template. -/
def Script.isSettled (s : Script) : Bool :=
  s.items.all fun i => i.isClosed && i.content.isUnescaped

mutual

theorem Expression.isReadable_rewritten (names : List String) : (wrapped : Bool) →
    (e : Expression) → e.IsReadable → e.isUnescaped = true → (e.rewritten names wrapped).IsReadable
  | _, .named _, _, _ => trivial
  | _, .quoted _, _, _ => trivial
  | _, .template body, h, he => body.isReadable_plain names false h he
  | wrapped, .tagged tag body, h, he => by
    obtain ⟨htag, hbody⟩ := Bool.and_eq_true_iff.mp he
    have halone := body.isReadable_marked names h.2 hbody
    rw [Expression.rewritten]
    split
    · exact halone
    · split
      · exact tag.isReadable_rewritten names true h.1 htag
      · split
        · exact halone
        · exact ⟨tag.isReadable_rewritten names false h.1 htag,
            body.isReadable_plain names true h.2 hbody⟩
  | _, .member object _ _, h, he => object.isReadable_rewritten names false h he
  | _, .call callee given, h, he => by
    obtain ⟨hcallee, hgiven⟩ := Bool.and_eq_true_iff.mp he
    exact ⟨callee.isReadable_rewritten names false h.1 hcallee,
      given.isReadable_rewritten names h.2 hgiven⟩
  | wrapped, .spaced _ inside _, h, he => inside.isReadable_rewritten names wrapped h he

theorem Body.isReadable_plain (names : List String) : (isTagged : Bool) → (b : Body) →
    b.IsReadable isTagged → b.isUnescaped isTagged = true →
      (b.rewritten names false).IsReadable isTagged
  | _, .last _, h, _ => h
  | isTagged, .hole _ inside rest, h, hb => by
    simp only [Body.isUnescaped, Bool.and_eq_true] at hb
    exact ⟨h.1, inside.isReadable_rewritten names false h.2.1 hb.1.2,
      rest.isReadable_plain names isTagged h.2.2 hb.2⟩

theorem Body.isReadable_marked (names : List String) : (b : Body) →
    b.IsReadable true → b.isUnescaped true = true → (b.rewritten names true).IsReadable false
  | .last raw, h, hb =>
    Outdent.Segment.isSegment_normalize h.1 (by simpa [Body.isUnescaped] using hb) false
  | .hole raw inside rest, h, hb => by
    simp only [Body.isUnescaped, Bool.and_eq_true] at hb
    exact ⟨Outdent.Segment.isSegment_normalize h.1.1 (by simpa using hb.1.1) false,
      inside.isReadable_rewritten names false h.2.1 hb.1.2,
      rest.isReadable_marked names h.2.2 hb.2⟩

theorem Arguments.isReadable_rewritten (names : List String) : (given : Arguments) →
    given.IsReadable → given.isUnescaped = true → (given.rewritten names).IsReadable
  | .closed _, _, _ => trivial
  | .last inside, h, hg => inside.isReadable_rewritten names false h hg
  | .more inside rest, h, hg => by
    obtain ⟨hinside, hrest⟩ := Bool.and_eq_true_iff.mp hg
    exact ⟨inside.isReadable_rewritten names false h.1 hinside,
      rest.isReadable_rewritten names h.2 hrest⟩

end

theorem Statement.isReadable_rewritten (names : List String) {c : Statement} (h : c.IsReadable)
    (hc : c.isUnescaped = true) : (c.rewritten names).IsReadable := by
  cases c with
  | imported => trivial
  | constant _ _ _ value => exact value.isReadable_rewritten names false h hc
  | plain e => exact e.isReadable_rewritten names false h hc

theorem isReadable_rewrittenItems (names : List String) (ending : Spacing) {items : List Item}
    (h : ∀ i ∈ items, i.content.IsReadable)
    (hitems : ∀ i ∈ items, i.isClosed = true ∧ i.content.isUnescaped = true) (g : Spacing) :
    (rewrittenItems names ending g items).IsReadable := by
  induction items generalizing g with
  | nil => exact ⟨by simp [rewrittenItems], trivial⟩
  | cons i items ih =>
    have hrest := ih (fun j hj => h j (List.mem_cons_of_mem _ hj))
      fun j hj => hitems j (List.mem_cons_of_mem _ hj)
    obtain ⟨hclosed, hunescaped⟩ := hitems i List.mem_cons_self
    rw [rewrittenItems]
    split
    · exact hrest _
    · exact ⟨List.forall_mem_cons.mpr
        ⟨Statement.isReadable_rewritten names (h i List.mem_cons_self) hunescaped,
          (hrest []).contents⟩, by simp [hclosed], (hrest []).parted⟩

theorem isReadable_rewritten {s : Script} (h : s.IsReadable) (hs : s.isSettled = true) :
    s.rewritten.IsReadable := by
  refine isReadable_rewrittenItems _ _ h.contents (fun i hi => ?_) []
  exact Bool.and_eq_true_iff.mp (List.all_eq_true.mp hs i hi)

end Outdent.Written
