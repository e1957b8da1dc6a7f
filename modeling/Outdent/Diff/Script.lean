import Outdent.Diff.Snake
/-! # A readable difference

A shortest difference is found by cutting both texts at the middle of a shortest way. After that,
added lines are moved upwards and downwards past equal lines as far as they go, which joins
additions that belong together.
-/
namespace Outdent.Diff

/-- A shortest difference, by at most `fuel` cuts in a row. -/
def shortest [DecidableEq α] : (fuel : Nat) → List α → List α → List (Chunk α)
  | 0, old, new => [.remove old, .add new]
  | fuel + 1, old, new =>
    let front := commonPrefix old new
    let old' := old.drop front
    let new' := new.drop front
    let back := commonSuffix old' new'
    let oldMiddle := old'.take (old'.length - back)
    let newMiddle := new'.take (new'.length - back)
    let between :=
      match oldMiddle, newMiddle with
      | [], [] => []
      | lines, [] => [.remove lines]
      | [], lines => [.add lines]
      | lines, others =>
        match middle lines others with
        | some (x, y) =>
          shortest fuel (lines.take x) (others.take y) ++
            shortest fuel (lines.drop x) (others.drop y)
        | none => [.remove lines, .add others]
    kept (old.take front) ++ between ++ kept (old'.drop (old'.length - back))

/-- A place in a row of chunks: the chunks above it, nearest first, a chunk, and those below. -/
structure Place (α : Type) where
  above : List (Chunk α)
  chunk : Chunk α
  below : List (Chunk α)

namespace Place

def keepOnTop (lines : List α) : List (Chunk α) → List (Chunk α)
  | .keep more :: rest => .keep (lines ++ more) :: rest
  | chunks => .keep lines :: chunks

def keepBelow (lines : List α) : List (Chunk α) → List (Chunk α)
  | .keep more :: rest => .keep (more ++ lines) :: rest
  | chunks => .keep lines :: chunks

/-- Moves a chunk upwards, past equal lines and past chunks of the other kind, joining chunks of
its own kind. -/
def moveUp [DecidableEq α] : (fuel : Nat) → Place α → Place α
  | 0, p => p
  | fuel + 1, p =>
    match p.chunk, p.above with
    | .add lines, .keep same :: above =>
      let n := commonSuffix same lines
      if n = 0 then p
      else
        let stay := same.take (same.length - n)
        let passed := same.drop (same.length - n)
        moveUp fuel ⟨kept stay ++ above, .add (passed ++ lines.take (lines.length - n)),
          keepOnTop passed p.below⟩
    | .add lines, .remove others :: above =>
      moveUp fuel ⟨above, .add lines, .remove others :: p.below⟩
    | .remove lines, .add others :: above =>
      moveUp fuel ⟨above, .remove lines, .add others :: p.below⟩
    | .add lines, .add more :: above => moveUp fuel ⟨above, .add (more ++ lines), p.below⟩
    | .remove lines, .remove more :: above =>
      moveUp fuel ⟨above, .remove (more ++ lines), p.below⟩
    | _, _ => p

def moveDown [DecidableEq α] : (fuel : Nat) → Place α → Place α
  | 0, p => p
  | fuel + 1, p =>
    match p.chunk, p.below with
    | .add lines, .keep same :: below =>
      let n := commonPrefix same lines
      if n = 0 then p
      else
        let passed := same.take n
        moveDown fuel ⟨keepBelow passed p.above, .add (lines.drop n ++ passed),
          kept (same.drop n) ++ below⟩
    | .add lines, .remove others :: below =>
      moveDown fuel ⟨.remove others :: p.above, .add lines, below⟩
    | .remove lines, .add others :: below =>
      moveDown fuel ⟨.add others :: p.above, .remove lines, below⟩
    | .add lines, .add more :: below => moveDown fuel ⟨p.above, .add (lines ++ more), below⟩
    | .remove lines, .remove more :: below =>
      moveDown fuel ⟨p.above, .remove (lines ++ more), below⟩
    | _, _ => p

/-- The number of moves that suffices in one direction: every move passes a line or a chunk. -/
def moves (chunks : List (Chunk α)) : Nat :=
  chunks.foldl (fun n c => n + (c.old.length + c.new.length + 1)) 0

def settle [DecidableEq α] (p : Place α) : Place α :=
  let up := p.moveUp (moves p.above)
  up.moveDown (moves up.below)

end Place

def settleAll [DecidableEq α] (isMoved : Chunk α → Bool) :
    (fuel : Nat) → List (Chunk α) → List (Chunk α) → List (Chunk α)
  | 0, above, below => above.reverse ++ below
  | _, above, [] => above.reverse
  | fuel + 1, above, chunk :: below =>
    if isMoved chunk then
      let p := Place.settle ⟨above, chunk, below⟩
      settleAll isMoved fuel (p.chunk :: p.above) p.below
    else settleAll isMoved fuel (chunk :: above) below

def Chunk.isRemoval : Chunk α → Bool
  | .remove _ => true
  | _ => false

def Chunk.isAddition : Chunk α → Bool
  | .add _ => true
  | _ => false

/-- A shortest difference with its removals settled and then its additions. -/
def script [DecidableEq α] (old new : List α) : List (Chunk α) :=
  let chunks := shortest (old.length + new.length) old new
  let fuel := 2 * Place.moves chunks
  settleAll Chunk.isAddition fuel [] (settleAll Chunk.isRemoval fuel [] chunks)

inductive Mark where
  | same
  | removed
  | added
deriving DecidableEq

/-- The lines of chunks with their marks; where lines are replaced the removed ones come first.
Removals and additions are held back up to the next lines in common. -/
def marked : (removed added : List α) → List (Chunk α) → List (Mark × α)
  | removed, added, [] => removed.map (.removed, ·) ++ added.map (.added, ·)
  | removed, added, .remove lines :: rest => marked (removed ++ lines) added rest
  | removed, added, .add lines :: rest => marked removed (added ++ lines) rest
  | removed, added, .keep lines :: rest =>
    removed.map (.removed, ·) ++ added.map (.added, ·) ++ lines.map (.same, ·) ++
      marked [] [] rest

def ofTexts (old new : List Char) : List (Mark × List Char) :=
  marked [] [] (script (lines old) (lines new))

end Outdent.Diff
