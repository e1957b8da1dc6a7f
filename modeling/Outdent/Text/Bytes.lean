/-! # Byte offsets into a text

Positions in a document are UTF-8 byte offsets. A text is handled as its characters; an offset
is a boundary when some whole number of characters ends there.
-/
namespace Outdent.Text

def byteLength : List Char → Nat
  | [] => 0
  | c :: cs => c.utf8Size + byteLength cs

/-- Cuts a text after the characters that start before byte `n`. -/
def splitAtByte : Nat → List Char → List Char × List Char
  | _, [] => ([], [])
  | 0, cs => ([], cs)
  | n + 1, c :: cs =>
    let (before, after) := splitAtByte (n + 1 - c.utf8Size) cs
    (c :: before, after)

/-- Whether byte offset `n` lies between two characters or at an end of the text. -/
def isBoundary : Nat → List Char → Bool
  | 0, _ => true
  | _ + 1, [] => false
  | n + 1, c :: cs => c.utf8Size ≤ n + 1 && isBoundary (n + 1 - c.utf8Size) cs

def slice (start stop : Nat) (cs : List Char) : List Char :=
  (splitAtByte (stop - start) (splitAtByte start cs).2).1

@[simp] theorem byteLength_append (xs ys : List Char) :
    byteLength (xs ++ ys) = byteLength xs + byteLength ys := by
  induction xs with
  | nil => simp [byteLength]
  | cons c cs ih => simp [byteLength, ih]; omega

theorem splitAtByte_append (n : Nat) (cs : List Char) :
    (splitAtByte n cs).1 ++ (splitAtByte n cs).2 = cs := by
  fun_induction splitAtByte n cs <;> simp_all

/-- At a boundary the first part has exactly as many bytes as asked for. -/
theorem byteLength_splitAtByte {n : Nat} {cs : List Char} (h : isBoundary n cs = true) :
    byteLength (splitAtByte n cs).1 = n := by
  fun_induction isBoundary n cs with
  | case1 cs => cases cs <;> simp [splitAtByte, byteLength]
  | case2 => simp at h
  | case3 n c cs ih =>
    simp only [Bool.and_eq_true, decide_eq_true_eq] at h
    simp only [splitAtByte, byteLength]
    have := ih h.2
    omega

end Outdent.Text
