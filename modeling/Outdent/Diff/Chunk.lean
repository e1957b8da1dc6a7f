/-! # Differences of texts

A difference of two texts is a row of chunks of their lines: some are in both texts, some only in
the old one and some only in the new one. A line keeps its ending; it ends with a line feed, a
carriage return or both.
-/
namespace Outdent.Diff

/-- The lines of a text, each with its ending; the last one may have none. -/
def lines : List Char → List (List Char)
  | [] => []
  | '\r' :: '\n' :: cs => ['\r', '\n'] :: lines cs
  | c :: cs =>
    if c = '\n' || c = '\r' then [c] :: lines cs
    else match lines cs with
      | [] => [[c]]
      | l :: ls => (c :: l) :: ls

inductive Chunk (α : Type) where
  | keep (lines : List α)
  | remove (lines : List α)
  | add (lines : List α)
deriving DecidableEq

namespace Chunk

def old : Chunk α → List α
  | .keep lines => lines
  | .remove lines => lines
  | .add _ => []

def new : Chunk α → List α
  | .keep lines => lines
  | .remove _ => []
  | .add lines => lines

end Chunk

def kept (lines : List α) : List (Chunk α) := if lines.isEmpty then [] else [.keep lines]

def commonPrefix [DecidableEq α] : List α → List α → Nat
  | a :: as, b :: bs => if a = b then commonPrefix as bs + 1 else 0
  | _, _ => 0

def commonSuffix [DecidableEq α] (as bs : List α) : Nat := commonPrefix as.reverse bs.reverse

end Outdent.Diff
