import Outdent.Proofs.Edit.Emission
/-! # Where the characters of a result come from

Every character of a result is part of a replacement or was copied from a byte of the document. A
trace of the edits says which, and what it says is true of the document and the edits. -/
namespace Outdent

def Text.StandsAt (text : List Char) (offset : Nat) (c : Char) : Prop :=
  ∃ before after, text = before ++ c :: after ∧ Text.byteLength before = offset

inductive Provenance where
  /-- The replacement of an edit. -/
  | inserted (edit : Edit)
  /-- A byte offset of the document, in a span that is copied from `start` on. -/
  | copied (start offset : Nat)
deriving DecidableEq

namespace Provenance

def traceCopied (start : Nat) : (offset : Nat) → List Char → List (Char × Provenance)
  | _, [] => []
  | offset, c :: cs => (c, .copied start offset) :: traceCopied start (offset + c.utf8Size) cs

def traceFrom (text : List Char) (position : Nat) : List Edit → List (Char × Provenance)
  | [] => traceCopied position position (Text.slice position (Text.byteLength text) text)
  | e :: es =>
    traceCopied position position (Text.slice position e.range.start text) ++
      (e.replacement.map (·, .inserted e) ++ traceFrom text e.range.stop es)

/-- The characters of a result and where they come from. -/
def trace (text : List Char) (edits : List Edit) : List (Char × Provenance) :=
  traceFrom text 0 (Edit.sort edits)

/-- What it means that a character comes from somewhere: the replacement has it, or the document
has it at the offset, and its span reaches back to the edit in front and has no edit inside. -/
def Holds (text : List Char) (edits : List Edit) (c : Char) : Provenance → Prop
  | .inserted e => e ∈ edits ∧ c ∈ e.replacement
  | .copied start offset =>
    Text.StandsAt text offset c ∧ start ≤ offset ∧ (start = 0 ∨ ∃ e ∈ edits, e.range.stop = start) ∧
      ∀ e ∈ edits, e.range.stop ≤ start ∨ offset < e.range.start

@[simp] theorem map_fst_traceCopied (start offset : Nat) (cs : List Char) :
    (traceCopied start offset cs).map Prod.fst = cs := by
  induction cs generalizing offset with
  | nil => rfl
  | cons c cs ih => simp [traceCopied, ih]

theorem of_traceCopied_eq {start offset : Nat} {cs : List Char} {us vs : List (Char × Provenance)}
    {c : Char} {p : Provenance} (h : traceCopied start offset cs = us ++ (c, p) :: vs) :
    cs = us.map Prod.fst ++ c :: vs.map Prod.fst ∧
      p = .copied start (offset + Text.byteLength (us.map Prod.fst)) := by
  induction us generalizing offset cs with
  | nil =>
    cases cs with
    | nil => simp [traceCopied] at h
    | cons d ds =>
      simp only [traceCopied, List.nil_append, List.cons.injEq, Prod.mk.injEq] at h
      obtain ⟨⟨rfl, rfl⟩, rfl⟩ := h
      simp [Text.byteLength]
  | cons u us ih =>
    cases cs with
    | nil => simp [traceCopied] at h
    | cons d ds =>
      simp only [traceCopied, List.cons_append, List.cons.injEq] at h
      obtain ⟨rfl, hrest⟩ := h
      obtain ⟨rfl, rfl⟩ := ih hrest
      simp [Text.byteLength, Nat.add_assoc]

variable {text xs v rest : List Char}

theorem holds_copied {all : List Edit} (htext : text = xs ++ v ++ rest)
    (hstart : Text.byteLength xs = 0 ∨ ∃ e ∈ all, e.range.stop = Text.byteLength xs)
    (hapart : ∀ e ∈ all, e.range.stop ≤ Text.byteLength xs ∨
      Text.byteLength xs + Text.byteLength v ≤ e.range.start) :
    ∀ x ∈ traceCopied (Text.byteLength xs) (Text.byteLength xs) v, Holds text all x.1 x.2 := by
  rintro ⟨c, p⟩ hx
  obtain ⟨us, vs, hsplit⟩ := List.append_of_mem hx
  obtain ⟨rfl, rfl⟩ := of_traceCopied_eq hsplit
  refine ⟨?_, Nat.le_add_right _ _, hstart, fun e he => (hapart e he).imp_right fun hle => ?_⟩
  · exact ⟨xs ++ us.map Prod.fst, vs.map Prod.fst ++ rest, by simp [htext],
      Text.byteLength_append _ _⟩
  · have hc := c.utf8Size_pos
    rw [Text.byteLength_append] at hle
    simp only [Text.byteLength] at hle
    omega

theorem holds_traceFrom {all es : List Edit} (xs : List Char) (htext : text = xs ++ rest)
    (hv : ∀ e ∈ es, e.range.isValidIn text = true)
    (hf : Span.Follows (Text.byteLength xs) (es.map Edit.range)) (hsub : ∀ e ∈ es, e ∈ all)
    (hdone : ∀ e ∈ all, e ∈ es ∨ e.range.stop ≤ Text.byteLength xs)
    (hstart : Text.byteLength xs = 0 ∨ ∃ e ∈ all, e.range.stop = Text.byteLength xs) :
    ∀ x ∈ traceFrom text (Text.byteLength xs) es, Holds text all x.1 x.2 := by
  induction es generalizing xs rest with
  | nil =>
    have hslice : Text.slice (Text.byteLength xs) (Text.byteLength text) text = rest := by
      rw [htext, Text.slice_rest]
    have htext' : text = xs ++ rest ++ [] := by rw [htext, List.append_nil]
    rw [traceFrom, hslice]
    refine holds_copied htext' hstart fun e he => Or.inl ?_
    exact (hdone e he).resolve_left List.not_mem_nil
  | cons e es ih =>
    obtain ⟨before, old, after, rfl, hcut⟩ :=
      Edit.exists_cutAt htext (hv e List.mem_cons_self) hf.1
    have hbefore : Text.byteLength xs + Text.byteLength before = e.range.start := by
      rw [← Text.byteLength_append, hcut.start]
    have hcopied : text = xs ++ before ++ (old ++ after) := by rw [htext, List.append_assoc]
    have hforward := (Span.isValidIn_iff.mp (hv e List.mem_cons_self)).1
    have hv' : ∀ f ∈ es, f.range.isValidIn text = true :=
      fun f hf => hv f (List.mem_cons_of_mem _ hf)
    have hlater : ∀ f ∈ es, e.range.stop ≤ f.range.start := Edit.start_le_of_follows hv' hf.2
    intro x hx
    rw [traceFrom, hcut.slice_eq] at hx
    rcases List.mem_append.mp hx with hx | hx
    · refine holds_copied hcopied hstart (fun f hf => ?_) x hx
      rcases hdone f hf with hf | hf
      · right
        rcases List.mem_cons.mp hf with rfl | hf
        · omega
        · have := hlater f hf
          omega
      · exact Or.inl hf
    · rcases List.mem_append.mp hx with hx | hx
      · obtain ⟨c, hc, rfl⟩ := List.mem_map.mp hx
        exact ⟨hsub e List.mem_cons_self, hc⟩
      · have hnext := ih (xs ++ before ++ old) hcut.text_eq hv' (hcut.stop ▸ hf.2)
          (fun f hf => hsub f (List.mem_cons_of_mem _ hf)) ?_
          (Or.inr ⟨e, hsub e List.mem_cons_self, hcut.stop.symm⟩)
        · exact hnext x (hcut.stop ▸ hx)
        · intro f hf
          rcases hdone f hf with hf | hf
          · rcases List.mem_cons.mp hf with rfl | hf
            · exact Or.inr (Nat.le_of_eq hcut.stop.symm)
            · exact Or.inl hf
          · right
            have hstop := hcut.stop
            rw [Text.byteLength_append, Text.byteLength_append] at hstop ⊢
            omega

theorem holds_trace {edits : List Edit} {ps : List Edit.Piece} (h : Edit.cut text edits = .ok ps) :
    ∀ x ∈ trace text edits, Holds text edits x.1 x.2 := by
  obtain ⟨hcheck, -⟩ := Edit.cut_eq_ok_iff.mp h
  obtain ⟨hv, hf⟩ := Edit.check_eq_ok_iff.mp hcheck
  exact holds_traceFrom [] rfl hv hf (fun e he => Edit.mem_sort.mp he)
    (fun e he => Or.inl (Edit.mem_sort.mpr he)) (Or.inl rfl)

end Provenance

end Outdent
