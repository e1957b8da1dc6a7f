/-! # Variable-length quantities

Signed numbers as characters of the base-64 alphabet. The lowest bit of a quantity is its sign.
It is written in groups of five bits, the lowest first, and bit six of a digit says that more
follow.
-/
namespace Outdent.Vlq

def alphabet : List Char :=
  "ABCDEFGHIJKLMNOPQRSTUVWXYZabcdefghijklmnopqrstuvwxyz0123456789+/".toList

def digit (n : Nat) : Char := alphabet.getD n 'A'

def zigzag (n : Int) : Nat := if n < 0 then 2 * n.natAbs + 1 else 2 * n.natAbs

def groups (n : Nat) : List Nat :=
  if h : n < 32 then [n] else (n % 32 + 32) :: groups (n / 32)
termination_by n
decreasing_by omega

def encode (n : Int) : List Char := (groups (zigzag n)).map digit

def unzigzag (n : Nat) : Int := if n % 2 = 1 then -(n / 2 : Nat) else (n / 2 : Nat)

theorem unzigzag_zigzag (n : Int) : unzigzag (zigzag n) = n := by
  unfold zigzag unzigzag
  split <;> split <;> omega

end Outdent.Vlq
