import Outdent.Diff.Chunk
/-! # The middle of a shortest difference

Going from the old text to the new one is a way through a grid, one step to the right for a line
that goes and one down for a line that comes; lines in common are passed for free along diagonals.
Two searches with more and more paid steps, one from each end, keep for every diagonal how far
they get. Where they meet is a point of a shortest way.
-/
namespace Outdent.Diff

/-- How far a search has got on each diagonal. Diagonals have numbers from `-offset` upwards. -/
structure Front where
  offset : Nat
  reach : Array Nat

namespace Front

def start (offset : Nat) : Front := ⟨offset, Array.replicate (2 * offset + 2) 0⟩

def on (f : Front) (k : Int) : Nat := f.reach.getD (k + f.offset).toNat 0

def set (f : Front) (k : Int) (x : Nat) : Front :=
  { f with reach := f.reach.setIfInBounds (k + f.offset).toNat x }

/-- Where a search enters a diagonal with its last paid step: from the diagonal above it if that
one has got further, and at the cost of a step to the right otherwise. -/
def entry (f : Front) (d : Nat) (k : Int) : Nat :=
  if k = -d || (k != d && f.on (k - 1) < f.on (k + 1)) then f.on (k + 1) else f.on (k - 1) + 1

end Front

/-- The diagonals that some number of paid steps can lead to, the highest first. -/
def diagonals (d : Nat) : List Int :=
  (List.range (d + 1)).map fun (i : Nat) => (d : Int) - 2 * (i : Int)

def runFrom [DecidableEq α] (old new : Array α) (x y : Nat) : Nat :=
  if h : x < old.size ∧ y < new.size then
    if old[x] = new[y] then runFrom old new (x + 1) (y + 1) + 1 else 0
  else 0
termination_by old.size - x

/-- One round of a search over some diagonals: the fronts after it, or where it meets the other
search. `found` gets the place at which the diagonal was entered and the place it leads to. -/
def round [DecidableEq α] (old new : Array α) (d : Nat) (meets : Int → Nat → Bool)
    (found : Nat × Nat → Nat × Nat → Nat × Nat) : Front → List Int → Front ⊕ Nat × Nat
  | f, [] => .inl f
  | f, k :: ks =>
    let x := f.entry d k
    let y := ((x : Int) - k).toNat
    let run := runFrom old new x y
    if meets k (x + run) then .inr (found (x, y) (x + run, y + run))
    else round old new d meets found (f.set k (x + run)) ks

def search [DecidableEq α] (old new oldBack newBack : Array α) (forward backward : Front) :
    (fuel d : Nat) → Option (Nat × Nat)
  | 0, _ => none
  | fuel + 1, d =>
    let n := old.size
    let m := new.size
    let delta : Int := (n : Int) - m
    let isOdd := delta % 2 != 0
    let meetsBackward (k : Int) (x : Nat) : Bool :=
      isOdd && (k - delta).natAbs + 1 ≤ d && n ≤ x + backward.on (-(k - delta))
    match round old new d meetsBackward (fun entered _ => entered) forward (diagonals d) with
    | .inr point => some point
    | .inl forward =>
      let meetsForward (k : Int) (x : Nat) : Bool :=
        !isOdd && (k - delta).natAbs ≤ d && n ≤ x + forward.on (-(k - delta))
      match round oldBack newBack d meetsForward (fun _ left => (n - left.1, m - left.2))
          backward (diagonals d) with
      | .inr point => some point
      | .inl backward => search old new oldBack newBack forward backward fuel (d + 1)

/-- A point on a shortest way from one text to another, as the numbers of lines in front of it.
Half as many paid steps as there are lines suffice for each of the two searches. -/
def middle [DecidableEq α] (old new : List α) : Option (Nat × Nat) :=
  let steps := (old.length + new.length + 1) / 2 + 1
  search old.toArray new.toArray old.reverse.toArray new.reverse.toArray
    (.start steps) (.start steps) steps 0

end Outdent.Diff
