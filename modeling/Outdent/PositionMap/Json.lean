import Outdent.Json.Text
import Outdent.PositionMap
import Outdent.PositionMap.Vlq
/-! # The written form of a position map

A position map is written as JSON with the keys `version`, `sources`, `sourcesContent`, `names`
and `mappings`, in that order. The mappings are grouped by output line with a semicolon between
lines and a comma between mappings of one line. A mapping is four signed numbers: the step in
output column, which starts anew on each line, the step in source index, which is always zero,
and the steps in source line and column.
-/
namespace Outdent.PositionMap

/-- The written mappings that follow `previous`. `opened` says whether a mapping already stands
on the current line. -/
def renderMappings (previous : Mapping) (opened : Bool) : List Mapping → List Char
  | [] => []
  | m :: ms =>
    let down := m.output.line - previous.output.line
    let column := if down = 0 then previous.output.column else 0
    let separator := if down = 0 then (if opened then [','] else []) else List.replicate down ';'
    let step (new old : Nat) : List Char := Vlq.encode ((new : Int) - old)
    separator ++ step m.output.column column ++ Vlq.encode 0 ++
      step m.origin.line previous.origin.line ++ step m.origin.column previous.origin.column ++
      renderMappings m true ms

def toJson (map : PositionMap) : List Char :=
  "\x7b\"version\":3,\"sources\":[".toList ++ Json.quote map.source.toList ++
    "],\"sourcesContent\":[".toList ++ Json.quote map.contents ++
    "],\"names\":[],\"mappings\":\"".toList ++
    renderMappings ⟨.origin, .origin⟩ false map.mappings ++ "\"\x7d".toList

end Outdent.PositionMap
