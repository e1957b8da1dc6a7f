import Outdent.Proofs.ByteOrderMark
import Outdent.Proofs.Written.Statement
/-! # Reading written scripts

A script that is spelled out is read as the tree it stands for. By induction over its statements:
each of them ends in front of the next one. -/
namespace Outdent.Written

open Syntax Reader Grammar

theorem Statement.ends_first (c : Statement) {rest : List Char}
    (h : ∀ d ∈ rest.head?, Text.isIdentifierPart d = false ∧ d ≠ '\\') :
    c.first.Ends (c.tail ++ rest) := by
  cases c with
  | imported g _ _ _ _ =>
    rw [tail, List.append_assoc]
    exact ends_name_parting importName g _
  | constant g _ _ _ =>
    rw [tail, List.append_assoc]
    exact ends_name_parting constName g _
  | plain e => exact e.ends_first h

section
variable {i : Item} {rest : List Char}

theorem scan_item (g : Spacing) (h : Stops i rest) (q : Nat) :
    Scan.ofInput q ⟨g.text ++ (i.text ++ rest), q⟩ =
      let p := q + Text.byteLength (g ++ (i.space ++ i.content.before)).text
      ⟨⟨i.content.first.kind, p, p + i.content.first.length,
          (g ++ (i.space ++ i.content.before)).breaksLine, i.content.first.value⟩,
        ⟨i.content.tail ++ (i.content.after.text ++ (i.closing ++ rest)),
          p + i.content.first.length⟩, []⟩ := by
  rw [i.text_append, ← List.append_assoc, ← Spacing.text_append]
  exact scan_lexeme _ _ (i.content.ends_first h.closer.breaks) q q

theorem Statement.kind_first_of_startsLine {c : Statement} (h : c.startsLine = true) :
    [.word .other, .word .importWord, .word .constWord, .string].contains c.first.kind = true := by
  cases c with
  | imported => rfl
  | constant => rfl
  | plain e =>
    have hkind := e.kind_first
    cases hfirst : e.first with
    | name m =>
      have hword : m.word = .other := by simpa [hfirst, Lexeme.kind] using hkind
      simp [Statement.first, hfirst, Lexeme.kind, hword]
    | quoted q => simp [Statement.first, hfirst, Lexeme.kind]
    | sign => simp [Statement.startsLine, Statement.first, hfirst] at h

theorem scans_item (h : Stops i rest) : Scans (i.text ++ rest) := by
  intro q
  have hscan := scan_item [] h q
  rw [Spacing.text_nil, List.nil_append] at hscan
  rw [hscan]

theorem startsLineToken_item {g : Spacing} {items : List Item} (h : Stops i rest)
    (hline : endsLine g (i :: items) = true) (q : Nat) :
    startsLineToken (Scan.ofInput q ⟨g.text ++ (i.text ++ rest), q⟩).token = true := by
  simp only [endsLine, Bool.and_eq_true, List.append_assoc] at hline
  rw [scan_item g h]
  simp only [startsLineToken, hline.1, Statement.kind_first_of_startsLine hline.2, Bool.and_true,
    Bool.or_true]

theorem follower_item {g : Spacing} {items : List Item} (h : Stops i rest)
    (hline : endsLine g (i :: items) = true) : Follower (g.text ++ (i.text ++ rest)) := by
  constructor
  · have hparting : g ++ (i.space ++ i.content.before) ≠ [] := by
      intro heq
      simp [endsLine, heq, Spacing.breaksLine] at hline
    rw [i.text_append, ← List.append_assoc, ← Spacing.text_append]
    exact breaks_parting ⟨_, hparting⟩ _
  · intro q
    rw [scan_item g h]
  · intro q
    have hends := endsOperand_of_startsLineToken (startsLineToken_item h hline q)
    simp [Token.followsOperand, hends]

theorem startsLineToken_end (g : Spacing) (q : Nat) :
    startsLineToken (Scan.ofInput q ⟨g.text, q⟩).token = true := by
  simp [scan_end, startsLineToken]

theorem follower_end (g : Spacing) : Follower g.text := by
  constructor
  · simpa using breaks_spacing g [] (by simp)
  · exact scans_end g
  · intro q
    have hends := endsOperand_of_startsLineToken (startsLineToken_end g q)
    simp [Token.followsOperand, hends]

/-- Every statement ends where the next one starts. -/
theorem stops_of_isParted {items : List Item} (ending : Spacing) (h : IsParted (i :: items)) :
    Stops i (textOfItems items ending) := by
  induction items generalizing i with
  | nil =>
    have htext : textOfItems [] ending = ending.text := rfl
    rw [htext]
    cases hclosed : i.isClosed with
    | true => exact stops_of_isClosed hclosed (scans_end ending)
    | false =>
      refine stops_of_startsLine hclosed ?_ ?_ <;> rw [← Spacing.text_append]
      · exact follower_end _
      · exact startsLineToken_end _
  | cons j items ih =>
    obtain ⟨hi, hitems⟩ := h
    have hj := ih hitems
    rw [textOfItems_cons]
    cases hclosed : i.isClosed with
    | true => exact stops_of_isClosed hclosed (scans_item hj)
    | false =>
      have hline : endsLine i.content.after (j :: items) = true := by simpa [hclosed] using hi
      exact stops_of_startsLine hclosed (follower_item hj hline) (startsLineToken_item hj hline)

end

def itemsStep (g : Grammar) : Reader (Option Node) := do
  if ← onEnd then return none
  return some (← g .moduleItem)

theorem holds_item {s : State} {i : Item} {rest : List Char} (g : Spacing) (h : Stops i rest)
    (q : Nat) (a : Option Nat) : Holds (s.behind (g.text ++ (i.text ++ rest)) q a) i.content.first
      (q + Text.byteLength (g ++ (i.space ++ i.content.before)).text)
      (i.content.tail ++ (i.content.after.text ++ (i.closing ++ rest))) := by
  rw [i.text_append, ← List.append_assoc, ← Spacing.text_append]
  exact holds_behind _ (i.content.ends_first h.closer.breaks)

theorem Item.behind_eq (i : Item) (rest : List Char) : i.behind rest = i.left.text ++ rest := by
  cases hi : i.isClosed <;> simp [behind, left, hi]

theorem Item.byteLength_text (i : Item) : Text.byteLength i.text =
    Text.byteLength i.space.text + Text.byteLength i.content.before.text + i.content.length +
      i.closingLength + Text.byteLength i.left.text := by
  cases hi : i.isClosed <;>
    simp [text, Statement.text, Statement.length, closing, closingLength, left, hi, Nat.add_assoc,
      Text.byteLength]

theorem Statement.first_kind_ne (c : Statement) : (c.first.kind == .endOfText) = false := by
  cases c.first <;> rfl

theorem Item.length_core_le (i : Item) : i.content.core.length ≤ i.text.length := by
  simp only [text, Statement.text, List.length_append]
  omega

theorem items_apply {items : List Item} {ending : Spacing} {depth : Nat} {s : State}
    (hreadable : ∀ i ∈ items, i.content.IsReadable) (hparted : IsParted items)
    (hdepth : (textOfItems items ending).length ≤ depth)
    (hbudget : (textOfItems items ending).length < s.budget) {k : Nat}
    (hk : (textOfItems items ending).length ≤ k) (g : Spacing) (q : Nat) (a : Option Nat)
    (found : List Node) : ∃ g' q' a',
      iterate (collectStep (itemsStep (ofDepth (depth + 3)))) k found
        (s.behind (g.text ++ textOfItems items ending) q a) =
      (.ok ((nodesOfItems (q + Text.byteLength g.text) items).reverse ++ found),
        s.behind (Spacing.text g') q' a') := by
  induction items generalizing k g q a found with
  | nil =>
    refine ⟨g ++ ending, q, a, ?_⟩
    have htext : g.text ++ textOfItems [] ending = (g ++ ending).text := by
      simp [textOfItems]
    have hkind : (s.behind (g ++ ending).text q a).token.kind = .endOfText := kind_behind_end _
    have hstep : itemsStep (ofDepth (depth + 3)) (s.behind (g ++ ending).text q a) =
        (.ok none, s.behind (g ++ ending).text q a) := by
      simp only [itemsStep, bind_apply, onEnd_apply, hkind]
      rfl
    rw [htext, iterate_of_none (collectStep_apply hstep found)]
    rfl
  | cons i items ih =>
    have hstops := stops_of_isParted ending hparted
    have hlength := i.length_core_le
    have hpositive := List.length_pos_iff.mpr i.content.core_ne_nil
    rw [textOfItems_cons, List.length_append] at hdepth hbudget hk
    rw [textOfItems_cons]
    obtain ⟨k, rfl⟩ : ∃ j, k = j + 1 := ⟨k - 1, by omega⟩
    have hheld := holds_item (s := s) g hstops q a
    have hdeep : i.content.core.length ≤ depth := by omega
    obtain ⟨a', hread⟩ := moduleItem_apply (hreadable i List.mem_cons_self) hdeep
      (by rw [State.budget_behind]; omega) hheld hstops
    have hnode : i.node (q + Text.byteLength g.text) = i.content.node
        (q + Text.byteLength (g ++ (i.space ++ i.content.before)).text) i.closingLength := by
      simp [Item.node, Nat.add_assoc]
    have hplace : q + Text.byteLength (g ++ (i.space ++ i.content.before)).text + i.content.length +
        i.closingLength + Text.byteLength i.left.text =
          q + Text.byteLength g.text + Text.byteLength i.text := by
      simp [i.byteLength_text, Nat.add_assoc]
    rw [← hnode, i.behind_eq] at hread
    have hstep : itemsStep (ofDepth (depth + 3))
        (s.behind (g.text ++ (i.text ++ textOfItems items ending)) q a) =
          (.ok (some (i.node (q + Text.byteLength g.text))),
            s.behind (i.left.text ++ textOfItems items ending)
              (q + Text.byteLength (g ++ (i.space ++ i.content.before)).text + i.content.length +
                i.closingLength) a') := by
      simp only [itemsStep, bind_apply, onEnd_apply, hheld.kind, i.content.first_kind_ne,
        Reader.ite_apply, hread]
      rfl
    obtain ⟨g', q', a'', hrest⟩ := ih (fun j hj => hreadable j (List.mem_cons_of_mem _ hj))
      hparted.2 (by omega) (by omega) (k := k) (by omega) i.left
      (q + Text.byteLength (g ++ (i.space ++ i.content.before)).text + i.content.length +
        i.closingLength) a' (i.node (q + Text.byteLength g.text) :: found)
    refine ⟨g', q', a'', ?_⟩
    rw [iterate_succ, collectStep_apply hstep]
    simp only [Option.map_some]
    rw [hrest, hplace]
    simp [nodesOfItems]

theorem moduleItems_apply (g : Grammar) (s : State) : Grammar.moduleItems g s =
    (List.reverse <$> iterate (collectStep (itemsStep g)) s.budget []) s := collect_apply _ s

theorem scans_items {items : List Item} (ending : Spacing) (h : IsParted items) :
    Scans (textOfItems items ending) := by
  cases items with
  | nil => exact scans_end ending
  | cons i items =>
    rw [textOfItems_cons]
    exact scans_item (stops_of_isParted ending h)

/-- A script is read as the tree that it stands for. -/
theorem ofText_text {s : Script} (h : s.IsReadable) (elements : Bool) :
    Module.ofText elements s.text = .ok s.module := by
  have hfaults : (State.ofText elements s.text).faults = [] := by
    have hscan := scans_items s.ending h.parted 0
    simpa [State.ofText, Input.ofText, Script.text] using hscan
  obtain ⟨depth, hdepth⟩ : ∃ d, depthPerToken * (s.text.length + 2) = d + 3 :=
    ⟨depthPerToken * (s.text.length + 2) - 3, by rw [depthPerToken]; omega⟩
  have hbudget : (State.ofText elements s.text).budget = s.text.length + 2 := rfl
  have hdeep : s.text.length ≤ depth := by
    rw [depthPerToken] at hdepth
    omega
  obtain ⟨g, q, a, hread⟩ := items_apply (s := State.ofText elements s.text) h.contents h.parted
    hdeep (by rw [hbudget, Script.text]; omega)
    (k := s.text.length + 2) (by rw [Script.text]; omega) [] 0 none []
  have hstart : (State.ofText elements s.text).behind
      (Spacing.text [] ++ textOfItems s.items s.ending) 0 none = State.ofText elements s.text := rfl
  rw [hstart] at hread
  simp only [Module.ofText, hdepth, moduleItems_apply, map_apply, hbudget, hread]
  have hend : ((State.ofText elements s.text).behind (Spacing.text g) q a).faults = [] := hfaults
  simp [hend, Script.module, Text.byteLength]

theorem head?_text_ne (s : Script) : s.text.head? ≠ some '\ufeff' := by
  have hhead : ∀ c ∈ s.text.head?, c ≠ '\ufeff' := by
    obtain ⟨items, ending⟩ := s
    cases items with
    | nil =>
      have htext : Script.text ⟨[], ending⟩ = ending.text ++ [] := by
        simp [Script.text, textOfItems]
      rw [htext]
      exact forall_head_spacing ending (fun _ _ h => h) (by simp)
    | cons i items =>
      rw [Script.text, textOfItems_cons, i.text_append]
      refine forall_head_spacing _ (fun _ _ h => h) ?_
      obtain ⟨d, cs, hchars, hd⟩ := exists_first i.content.first
      rw [hchars]
      rintro c hc rfl
      obtain rfl : d = '\ufeff' := Option.some.inj hc
      exact absurd hd (by decide)
  exact fun h => hhead _ h rfl

theorem parse_text {s : Script} (h : s.IsReadable) (id : String) :
    Document.parse ⟨id, s.text⟩ = .ok s.module := by
  simp only [Document.parse, Document.withoutByteOrderMark_eq_self (head?_text_ne s),
    ofText_text h]

end Outdent.Written
