import Outdent.PositionMap.Json
import Outdent.Project.Survey
/-! # Where rewritten sources are written

Below an output directory a source keeps the path that its identifier spells; an absolute one keeps
its last name only. A source that is not rewritten is copied. A map stands beside its source, under
the same name with an ending of its own, and the source tells where it is.
-/
namespace Outdent.Placement

open Outdent.Files (Fault Location Path Tree)

def target (outDir : Path) (id : String) : Path :=
  let path := Path.ofString id
  if path.isAbsolute then
    outDir.join ((path.fileName?.map fun name => ⟨false, [name]⟩).getD path)
  else outDir.join path

def mapName (target : Path) : String := target.fileName?.getD "" ++ ".map"

/-- The path of the map of a source. It takes the place of the last name, if there is one. -/
def mapTarget (target : Path) : Path :=
  let directory := if target.fileName?.isSome then target.steps.dropLast else target.steps
  ⟨target.isAbsolute, directory ++ [mapName target]⟩

def withReference (code : List Char) (name : String) : List Char :=
  (if code.getLast? = some '\n' then code else code ++ ['\n']) ++
    "//# sourceMappingURL=".toList ++ name.toList ++ ['\n']

/-- What is written for a visit, in order: a map comes before its source. -/
def writings (outDir : Path) (v : Visit) : List (Path × List Char) :=
  let place := target outDir v.source.id
  match v.result with
  | none => [(place, v.text)]
  | some r =>
    match r.map with
    | none => [(place, r.code)]
    | some m =>
      [(mapTarget place, m.toJson), (place, withReference r.code (mapName place))]

def writeAll (files : Tree) (directory : Location) : List (Path × List Char) → Tree × Option Fault
  | [] => (files, none)
  | (path, text) :: rest =>
    match files.write directory path text with
    | (files, some fault) => (files, some fault)
    | (files, none) => writeAll files directory rest

def perform (directory : Location) (outDir : Path) (files : Tree) (v : Visit) :
    Tree × Option Fault :=
  let place := target outDir v.source.id
  match files.makeDirectories false (if place.isAbsolute then [] else directory)
      place.steps.dropLast with
  | (files, some fault) => (files, some fault)
  | (files, none) => writeAll files directory (writings outDir v)

end Outdent.Placement
