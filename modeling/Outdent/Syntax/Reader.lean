import Outdent.Syntax.Token
import Outdent.Syntax.Tree
/-! # Reading with one token in hand

A reader goes over the tokens of a script with one of them in hand. It can fail at a byte
position, which ends the reading, or report a position and go on: the script is at fault either
way, but a failure outweighs every report. What a reader has seen stays seen when it fails; only
an attempt takes back what it read.
-/
namespace Outdent.Syntax

structure Context where
  elements : Bool
  inJoins : Bool := true
  isAsync : Bool := false
  isGenerator : Bool := false
  inFunction : Bool := false
  hasTarget : Bool := false
  inParameters : Bool := false
  inClass : Bool := false
  inClassField : Bool := false
  inStaticBlock : Bool := false
  hasSuperclass : Bool := false
  breakable : Bool := false
  continuable : Bool := false
  ambient : Bool := false
  /-- The head of a loop, before it is known which loop it is. -/
  loopHead : Bool := false
  awaitingLoopHead : Bool := false
  inBranch : Bool := false
  colonDue : Bool := false
  /-- A type that goes on with `extends` is not a conditional one here. -/
  plainTypes : Bool := false
  silent : Bool := false

structure State where
  context : Context
  token : Token
  rest : Input
  previousStop : Nat
  faults : List Nat := []
  labels : List String := []
  arrowStart : Option Nat := none
  budget : Nat

/-- A step over tokens, which gives a value or the position where it fails. -/
def Reader (α : Type) : Type := State → Except Nat α × State

namespace Reader

@[always_inline, inline] protected def pure (a : α) : Reader α := fun s => (.ok a, s)

@[always_inline, inline] protected def bind (r : Reader α) (f : α → Reader β) : Reader β :=
  fun s =>
    match r s with
    | (.ok a, s) => f a s
    | (.error e, s) => (.error e, s)

@[always_inline] instance : Monad Reader where
  pure := Reader.pure
  bind := Reader.bind

@[always_inline] instance : MonadStateOf State Reader where
  get := fun s => (.ok s, s)
  set s := fun _ => (.ok (), s)
  modifyGet f := fun s => (.ok (f s).1, (f s).2)

def failAt (position : Nat) : Reader α := fun s => (.error position, s)

def fail : Reader α := fun s => (.error s.token.start, s)

/-- Gives the outcome of a reader as a value, so that a failure does not end the reading. -/
def outcome (r : Reader α) : Reader (Except Nat α) := fun s =>
  let (result, s) := r s
  (.ok result, s)

def report (position : Nat) : Reader Unit := fun s =>
  (.ok (), if s.context.silent then s else { s with faults := position :: s.faults })

/-- Reads in another context, and returns to the present one however the reading ends. -/
def within (f : Context → Context) (r : Reader α) : Reader α := fun s =>
  let (result, after) := r { s with context := f s.context }
  (result, { after with context := s.context })

/-- Reads without reporting faults. Where nothing comes of it, what was read is taken back. -/
def attempt (r : Reader (Option α)) : Reader (Option α) := fun s =>
  match r { s with context := { s.context with silent := true } } with
  | (.ok (some a), after) => (.ok (some a), { after with context := s.context })
  | _ => (.ok none, s)

/-- Looks ahead: what was read is taken back in any case, and a failure is a no. -/
def foresee (r : Reader Bool) : Reader Bool := fun s =>
  match r { s with context := { s.context with silent := true } } with
  | (.ok b, _) => (.ok b, s)
  | _ => (.ok false, s)

/-- Repeats a step from a value while it gives another one, at most so many times. -/
def iterate (step : α → Reader (Option α)) : Nat → α → Reader α
  | 0, a => pure a
  | fuel + 1, a => do
    match ← step a with
    | some next => iterate step fuel next
    | none => pure a

/-- Repeats a step from a value while it gives another one. A step that goes on reads a token, so
the bound of the tokens bounds the steps. -/
def repeating (a : α) (step : α → Reader (Option α)) : Reader α := do
  iterate step (← get).budget a

def collect (step : Reader (Option α)) : Reader (List α) := do
  let found ← repeating [] fun found => do return (← step).map (· :: found)
  return found.reverse

def token : Reader Token := do return (← get).token

def here : Reader Nat := do return (← get).token.start

def behind : Reader Nat := do return (← get).previousStop

def context : Reader Context := do return (← get).context

def ahead : Reader Token := do
  let s ← get
  return (Scan.ofInput s.token.stop s.rest).token

/-- Takes a scanned token in hand; the last token read ends at `stop`. -/
def hold (scan : Scan) (stop : Nat) : Reader Unit := modify fun s =>
  { s with
    token := scan.token
    rest := scan.rest
    previousStop := stop
    faults := if s.context.silent then s.faults else scan.faults.reverse ++ s.faults }

def resume (input : Input) : Reader Unit :=
  hold (Scan.ofInput input.position input) input.position

def advance : Reader Unit := do
  let s ← get
  hold (Scan.ofInput s.token.stop s.rest) s.token.stop

def advanceInTag : Reader Unit := do
  let s ← get
  hold (Scan.inTag s.token.stop s.rest) s.token.stop

/-- Takes only the first character of the mark in hand for the token, which becomes `m`. -/
def splitMark (m : Mark) : Reader Unit := modify fun s =>
  let left := ((s.token.mark?.map Mark.spelling).getD []).drop 1
  { s with
    token := { s.token with kind := .mark m, stop := s.token.start + 1 }
    rest := ⟨left ++ s.rest.text, s.token.start + 1⟩ }

def on (m : Mark) : Reader Bool := do return (← token).isMark m

def onWord (w : Word) : Reader Bool := do return (← token).isWord w

def onAny (ms : List Mark) : Reader Bool := do return (← token).mark?.any ms.contains

def onEnd : Reader Bool := do return (← token).kind == .endOfText

/-- Whether a line ends in front of the token in hand. -/
def afterNewline : Reader Bool := do return (← token).afterNewline

def take (m : Mark) : Reader Bool := do
  if ← on m then
    advance
    return true
  return false

def takeWord (w : Word) : Reader Bool := do
  if ← onWord w then
    advance
    return true
  return false

def need (m : Mark) : Reader Unit := do
  unless ← take m do fail

def needWord (w : Word) : Reader Unit := do
  unless ← takeWord w do fail

/-- Whether a statement can end here: at a semicolon, a closing brace, the end of a line or the end
of the text. -/
def onStop : Reader Bool := do
  let t ← token
  return t.isMark .semicolon || t.isMark .closeBrace || t.kind == .endOfText || t.afterNewline

def takeStop : Reader Bool := do
  if ← take .semicolon then return true
  onStop

def needStop : Reader Unit := do
  unless ← takeStop do fail

/-- Whether the sign that closes type arguments is in hand, alone or at the start of a longer
mark. -/
def onGreater : Reader Bool := do
  return (← token).mark?.any fun m => m.spelling.head? == some '>'

def needGreater : Reader Unit := do
  unless ← onGreater do fail
  splitMark .greater
  advance

/-- The bytes from a position to the end of the last token read. -/
def spanFrom (start : Nat) : Reader Span := do return ⟨start, ← behind⟩

def node (kind : Kind) (start : Nat) (children : List Node) : Reader Node := do
  return .other kind (← spanFrom start) children

/-- The items up to a closing mark, with commas between them; a comma may stand behind the last.
The closing mark stays in hand. -/
def separated (close : Mark) (item : Reader α) : Reader (List α) :=
  let step : List α × Bool → Reader (Option (List α × Bool)) := fun (found, isOver) => do
    if isOver || (← onEnd) || (← on close) then return none
    let next ← item
    if ← on close then return some (next :: found, true)
    need .comma
    return some (next :: found, false)
  do
    let (found, _) ← repeating ([], false) step
    return found.reverse

end Reader

end Outdent.Syntax
