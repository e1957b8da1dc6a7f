/-! # Blank characters

The Unicode property `White_Space`, and trimming text by it. The property is wider
than `Char.isWhitespace`: it holds the vertical tab, the form feed, the next-line control, the
spaces of the general punctuation block, and both line and paragraph separators. It does not
hold the byte order mark, the zero-width space, or the four information separators.
-/
namespace Outdent.Text

def isBlank (c : Char) : Bool :=
  let n := c.toNat
  (9 ≤ n && n ≤ 13) || n == 0x20 || n == 0x85 || n == 0xA0 || n == 0x1680 ||
    (0x2000 ≤ n && n ≤ 0x200A) || n == 0x2028 || n == 0x2029 || n == 0x202F ||
    n == 0x205F || n == 0x3000

def trimStart (cs : List Char) : List Char := cs.dropWhile isBlank

def trimEnd (cs : List Char) : List Char := (cs.reverse.dropWhile isBlank).reverse

def trim (cs : List Char) : List Char := trimEnd (trimStart cs)

end Outdent.Text
