import Outdent.CommandLine.Basic
import Outdent.Json.Text
import Outdent.Project.Check
/-! # Listing a project

A listing tells of every source of a project whether it would be rewritten, and with which counts.
It changes nothing.
-/
namespace Outdent

open Outdent.CommandLine (Format)
open Outdent.Console (paint)
open Outdent.Marker (Stats)

structure Listing where
  entries : List (String × Option Stats)
deriving DecidableEq

namespace Listing

def ofVisits (visits : List Visit) : Listing where
  entries := visits.map fun v => (v.source.id, v.result.map (·.stats))

def rewritten (l : Listing) : List (String × Stats) :=
  l.entries.filterMap fun (id, stats) => stats.map fun s => (id, s)

theorem rewritten_ofVisits (visits : List Visit) :
    (ofVisits visits).rewritten = (Check.ofVisits visits).pending := by
  simp [ofVisits, rewritten, Check.ofVisits, List.filterMap_map, Function.comp_def]

def entryText : String × Option Stats → String
  | (id, some stats) => s!"  {id} ({stats.describe})\n"
  | (id, none) => s!"  {id} (no marker usages)\n"

def jsonField (name value : String) : String := "    \"" ++ name ++ "\": " ++ value

def entryJson (entry : String × Option Stats) : String :=
  let stats := entry.2.getD ⟨0, 0, 0, 0⟩
  "  \x7b\n" ++ String.intercalate ",\n"
    [jsonField "file" (String.ofList (Json.quote entry.1.toList)),
      jsonField "rewritten" (if entry.2.isSome then "true" else "false"),
      jsonField "imports_removed" (toString stats.importsRemoved),
      jsonField "direct_matches" (toString stats.directMatches),
      jsonField "composed_matches" (toString stats.composedMatches),
      jsonField "segments" (toString stats.segments)] ++ "\n  \x7d"

def conclusion (isColored : Bool) (format : Format) (l : Listing) : Conclusion :=
  match format, l.entries with
  | .json, [] => { output := "[]\n" }
  | .json, entries =>
    { output := "[\n" ++ String.intercalate ",\n" (entries.map entryJson) ++ "\n]\n" }
  | .text, [] => { output := "No eligible files found.\n" }
  | .text, entries =>
    { output := paint isColored .bold "Files:" ++ "\n" ++ String.join (entries.map entryText) }

end Listing

end Outdent
