import Mathlib.Data.Prod.Lex
import Outdent.Proofs.Rewrite
import Outdent.Proofs.Text.Encoding
import Outdent.Proofs.Text.Lines
/-! # Looking up points

The table of a text holds zero and the offset behind each byte that is a line feed, ascending. A
search that halves it finds as many starts up to an offset as there are line feeds in front of the
offset, and one more, so the point of an offset is its line and its distance from where that line
starts. -/
namespace Outdent

open Glob (bytes)

def lineFeed : UInt8 := 10

namespace LineTable

/-! ## The starts of lines -/

variable {text : List Char} {offset : Nat}

end LineTable

end Outdent
