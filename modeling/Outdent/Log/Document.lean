import Outdent.Log.Event
import Outdent.Rewrite
/-! # What is noted about a document

The events that go with rewriting a document: that it is read, under which names it imports the
marker, which templates are marked, and how many edits come of it.
-/
namespace Outdent.Log

open Outdent.Marker (Stats Usage)

/-- A name in quotation marks; joiners without width are written as their code points. -/
def quoted (name : String) : String :=
  let text := name.toList.flatMap fun c =>
    if c = '\u200c' then "\\u\x7b200c\x7d".toList
    else if c = '\u200d' then "\\u\x7b200d\x7d".toList
    else [c]
  "\"" ++ String.ofList text ++ "\""

def ranges (spans : List Span) : String :=
  "[" ++ String.intercalate ", " (spans.map fun s => s!"{s.start}..{s.stop}") ++ "]"

def counts (s : Stats) : String :=
  "RewriteStats \x7b imports_removed: " ++ toString s.importsRemoved ++
    ", direct_matches: " ++ toString s.directMatches ++
    ", composed_matches: " ++ toString s.composedMatches ++
    ", segments: " ++ toString s.segments ++ " \x7d"

def parsing (d : Document) : Event :=
  ⟨.debug, "dedent_core::parser", "parsing document", [("id", d.id)]⟩

def aliasImported (name : String) : Event :=
  ⟨.trace, "dedent_core::imports", "marker alias imported", [("name", quoted name)]⟩

def usage (u : Usage) : Event :=
  ⟨.trace, "dedent_core::walker", "marker template",
    [("kind", if u.isDirect then "Direct" else "Composed"), ("range", ranges u.removals)]⟩

def collected (d : Document) (m : Syntax.Module) : Event :=
  ⟨.debug, "dedent_core::transform", "collected edits",
    [("id", d.id), ("edits", toString (Marker.edits m).length),
      ("stats", counts (Stats.ofModule m))]⟩

def ofDocument (d : Document) : List Event :=
  parsing d ::
    match d.parse with
    | .error _ => []
    | .ok m =>
      (Marker.aliases m).map aliasImported ++ (Marker.usages m).map usage ++ [collected d m]

def loaded (path : String) : Event :=
  ⟨.debug, "dedent_core::config", "loaded config", [("path", path)]⟩

def processed (id : String) (isRewritten : Bool) : Event :=
  ⟨.debug, "dedent", "processed file",
    [("id", id), ("rewritten", if isRewritten then "true" else "false")]⟩

end Outdent.Log
