import Outdent.Proofs.Written.Lexeme
import Outdent.Syntax.Reader
/-! # The lexeme in hand

How a reader steps over written text: which lexeme it has in hand, and in which state it stands
behind what it has read. -/
namespace Outdent.Syntax

namespace Reader

variable {α β : Type}

@[simp] theorem bind_apply (r : Reader α) (f : α → Reader β) (s : State) :
    (r >>= f) s = match r s with
      | (.ok a, s) => f a s
      | (.error e, s) => (.error e, s) := rfl

@[simp] theorem pure_apply (a : α) (s : State) : (pure a : Reader α) s = (.ok a, s) := rfl

@[simp] theorem map_apply (f : α → β) (r : Reader α) (s : State) :
    (f <$> r) s = match r s with
      | (.ok a, s) => (.ok (f a), s)
      | (.error e, s) => (.error e, s) := rfl

@[simp] theorem discard_apply (r : Reader α) (s : State) : (discard r : Reader PUnit) s =
    match r s with
      | (.ok _, s) => (.ok ⟨⟩, s)
      | (.error e, s) => (.error e, s) := rfl

@[simp] theorem ite_apply (c : Prop) [Decidable c] (r r' : Reader α) (s : State) :
    (if c then r else r') s = if c then r s else r' s := by
  split <;> rfl

@[simp] theorem get_apply (s : State) : (get : Reader State) s = (.ok s, s) := rfl

@[simp] theorem modify_apply (f : State → State) (s : State) :
    (modify f : Reader Unit) s = (.ok (), f s) := rfl

@[simp] theorem token_apply (s : State) : token s = (.ok s.token, s) := rfl

@[simp] theorem here_apply (s : State) : here s = (.ok s.token.start, s) := rfl

@[simp] theorem context_apply (s : State) : context s = (.ok s.context, s) := rfl

@[simp] theorem ahead_apply (s : State) :
    ahead s = (.ok (Scan.ofInput s.token.stop s.rest).token, s) := rfl

@[simp] theorem on_apply (m : Mark) (s : State) : on m s = (.ok (s.token.isMark m), s) := rfl

@[simp] theorem onWord_apply (w : Word) (s : State) :
    onWord w s = (.ok (s.token.isWord w), s) := rfl

@[simp] theorem onAny_apply (ms : List Mark) (s : State) :
    onAny ms s = (.ok (s.token.mark?.any ms.contains), s) := rfl

@[simp] theorem onEnd_apply (s : State) : onEnd s = (.ok (s.token.kind == .endOfText), s) := rfl

@[simp] theorem afterNewline_apply (s : State) :
    afterNewline s = (.ok s.token.afterNewline, s) := rfl

@[simp] theorem spanFrom_apply (start : Nat) (s : State) :
    spanFrom start s = (.ok ⟨start, s.previousStop⟩, s) := rfl

@[simp] theorem node_apply (kind : Kind) (start : Nat) (children : List Node) (s : State) :
    node kind start children s = (.ok (.other kind ⟨start, s.previousStop⟩ children), s) := rfl

theorem take_apply (m : Mark) (s : State) : take m s =
    if s.token.isMark m then ((advance >>= fun _ => pure true : Reader Bool) s)
    else (.ok false, s) := by
  cases h : s.token.isMark m <;> simp [take, h]

theorem takeWord_apply (w : Word) (s : State) : takeWord w s =
    if s.token.isWord w then ((advance >>= fun _ => pure true : Reader Bool) s)
    else (.ok false, s) := by
  cases h : s.token.isWord w <;> simp [takeWord, h]

@[simp] theorem iterate_succ (step : α → Reader (Option α)) (k : Nat) (a : α) (s : State) :
    iterate step (k + 1) a s = match step a s with
      | (.ok (some next), s) => iterate step k next s
      | (.ok none, s) => (.ok a, s)
      | (.error e, s) => (.error e, s) := by
  rw [iterate, bind_apply]
  rcases step a s with ⟨_ | _ | _, _⟩ <;> rfl

theorem iterate_of_none {step : α → Reader (Option α)} {a : α} {s : State}
    (h : step a s = (.ok none, s)) (k : Nat) : iterate step k a s = (.ok a, s) := by
  cases k with
  | zero => rfl
  | succ k => rw [iterate_succ, h]

def collectStep (step : Reader (Option α)) (found : List α) : Reader (Option (List α)) := do
  return (← step).map (· :: found)

theorem collect_apply (step : Reader (Option α)) (s : State) :
    collect step s = (List.reverse <$> iterate (collectStep step) s.budget []) s := by
  rw [map_apply]
  rfl

theorem collectStep_apply {step : Reader (Option α)} {s s' : State} {x : Option α}
    (h : step s = (.ok x, s')) (found : List α) :
    collectStep step found s = (.ok (x.map (· :: found)), s') := by
  simp [collectStep, h]

theorem repeating_apply (a : α) (step : α → Reader (Option α)) (s : State) :
    repeating a step s = iterate step s.budget a s := rfl

end Reader

/-- The state of a reader that stands behind what ends at an offset, where it was in another one
before. -/
def State.behind (s : State) (rest : List Char) (q : Nat) (arrowStart : Option Nat) : State :=
  { s with
    token := (Scan.ofInput q ⟨rest, q⟩).token
    rest := (Scan.ofInput q ⟨rest, q⟩).rest
    previousStop := q
    arrowStart }

namespace State

variable (s : State) (rest rest' : List Char) (q q' : Nat) (a a' : Option Nat)

@[simp] theorem previousStop_behind : (s.behind rest q a).previousStop = q := rfl

@[simp] theorem arrowStart_behind : (s.behind rest q a).arrowStart = a := rfl

@[simp] theorem budget_behind : (s.behind rest q a).budget = s.budget := rfl

@[simp] theorem behind_behind :
    (s.behind rest q a).behind rest' q' a' = s.behind rest' q' a' := rfl

end State

end Outdent.Syntax

namespace Outdent.Written

open Syntax Reader

/-- A lexeme is the token in hand, at an offset and in front of text. -/
structure Holds (s : State) (l : Lexeme) (p : Nat) (rest : List Char) : Prop where
  kind : s.token.kind = l.kind
  start : s.token.start = p
  stop : s.token.stop = p + l.length
  text : s.token.text = l.value
  rest : s.rest = ⟨rest, p + l.length⟩

theorem Holds.congr {s s' : State} {l : Lexeme} {p : Nat} {rest : List Char}
    (h : Holds s l p rest) (ht : s'.token = s.token) (hr : s'.rest = s.rest) :
    Holds s' l p rest := by
  constructor <;> simp only [ht, hr, h.kind, h.start, h.stop, h.text, h.rest]

/-- The next token of a text has no fault. -/
def Scans (rest : List Char) : Prop := ∀ p, (Scan.ofInput p ⟨rest, p⟩).faults = []

theorem scans_lexeme (g : Spacing) {l : Lexeme} {rest : List Char} (h : l.Ends rest) :
    Scans (g.text ++ (l.chars ++ rest)) := fun p => by rw [scan_lexeme g l h]

theorem scans_end (g : Spacing) : Scans g.text := fun p => by rw [scan_end]

variable {s : State} {l : Lexeme} {p q : Nat} {rest : List Char} {a : Option Nat}

theorem holds_behind (g : Spacing) (h : l.Ends rest) :
    Holds (s.behind (g.text ++ (l.chars ++ rest)) q a) l (q + Text.byteLength g.text) rest := by
  constructor <;> simp [State.behind, scan_lexeme g l h]

theorem kind_behind_end (g : Spacing) :
    (s.behind g.text q a).token.kind = .endOfText := by
  simp [State.behind, scan_end]

theorem advance_apply (h : Holds s l p rest) (hs : Scans rest) :
    advance s = (.ok (), s.behind rest (p + l.length) s.arrowStart) := by
  have hfaults := hs (p + l.length)
  simp only [advance, bind_apply, get_apply, hold, modify_apply, h.stop, h.rest, hfaults]
  simp [State.behind]

theorem resume_apply (s : State) (hs : Scans rest) (q : Nat) :
    resume ⟨rest, q⟩ s = (.ok (), s.behind rest q s.arrowStart) := by
  simp [resume, hold, State.behind, hs q]

end Outdent.Written
