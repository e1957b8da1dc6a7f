import Outdent.Configuration
import Outdent.Log.Document
import Outdent.Project.Source
/-! # Going through the sources of a project

Sources are read and rewritten one after another. The first failure ends it, and what was done
before stays done. What is noted on the way is kept in order.
-/
namespace Outdent

open Outdent.Files (Location Path Tree)
open Outdent.Ignore (WalkFault)

inductive Failure where
  | document (error : Error)
  | file (fault : Files.Fault)
  | walk (fault : WalkFault)
deriving DecidableEq

inductive Note where
  | event (event : Log.Event)
  | skipped (id : String)
deriving DecidableEq

structure Visit where
  source : Source
  text : List Char
  result : Option Rewritten
deriving DecidableEq

namespace Visit

def code (v : Visit) : List Char := (v.result.map (·.code)).getD v.text

end Visit

structure Action where
  perform : Tree → Visit → Tree × Option Files.Fault := fun files _ => (files, none)
  notes : Visit → List Note := fun _ => []

structure Survey where
  visits : List Visit
  notes : List Note
  files : Tree
  failure : Option Failure

namespace Survey

def of (t : Transformer) (directory : Location) (action : Action) (files : Tree) :
    List Source → Survey
  | [] => ⟨[], [], files, none⟩
  | s :: rest =>
    match files.read directory s.path with
    | .error fault => ⟨[], [], files, some (.file fault)⟩
    | .ok text =>
      let noted := (Log.ofDocument ⟨s.id, text⟩).map Note.event
      match t.transform ⟨s.id, text⟩ with
      | .error e => ⟨[], noted, files, some (.document e)⟩
      | .ok result =>
        let v : Visit := ⟨s, text, result⟩
        match action.perform files v with
        | (files, some fault) => ⟨[], noted ++ action.notes v, files, some (.file fault)⟩
        | (files, none) =>
          let later := of t directory action files rest
          { later with
            visits := v :: later.visits
            notes := noted ++ action.notes v ++ later.notes }

theorem sources_of_no_failure {t : Transformer} {directory : Location} {action : Action}
    {files : Tree} {sources : List Source}
    (h : (of t directory action files sources).failure = none) :
    (of t directory action files sources).visits.map (·.source) = sources := by
  induction sources generalizing files with
  | nil => rfl
  | cons s rest ih =>
    cases read : files.read directory s.path with
    | error fault => simp [of, read] at h
    | ok text =>
      cases rewritten : t.transform ⟨s.id, text⟩ with
      | error e => simp [of, read, rewritten] at h
      | ok result =>
        match performed : action.perform files ⟨s, text, result⟩ with
        | (after, some fault) => simp [of, read, rewritten, performed] at h
        | (after, none) =>
          simp only [of, read, rewritten, performed] at h ⊢
          simpa using ih h

end Survey

structure Overrides where
  emitsMap : Bool := false
  resolution : Option Resolution := none

def Overrides.apply (o : Overrides) (options : Options) : Options :=
  { options with
    emitMap := o.emitsMap || options.emitMap
    resolution := o.resolution.getD options.resolution }

namespace Project

structure Request where
  overrides : Overrides := {}
  /-- The files to take; none stands for all of the project. -/
  named : List String := []
  notesSkipped : Bool := false

def transformer (p : Project) (o : Overrides) : List Note × Except Error Transformer :=
  match Configuration.load p.files p.directory p.root with
  | .error e => ([], .error e)
  | .ok none => ([], Transformer.ofOptions (o.apply {}))
  | .ok (some c) =>
    ([.event (Log.loaded c.path.spelling)], Transformer.ofOptions (o.apply c.options))

structure Result where
  sources : List Source
  survey : Survey

/-- Goes through a project. A failure before the first source leaves the files as they are. -/
def survey (p : Project) (r : Request) (action : List Source → Action) : Result :=
  let failed (notes : List Note) (f : Failure) : Result := ⟨[], ⟨[], notes, p.files, some f⟩⟩
  match p.transformer r.overrides with
  | (notes, .error e) => failed notes (.document e)
  | (notes, .ok t) =>
    match p.sources t.filter r.named with
    | .error fault => failed notes (.walk fault)
    | .ok sources =>
      let skipped :=
        if r.notesSkipped then (p.excluded t.filter r.named).map Note.skipped else []
      let s := Survey.of t p.directory (action sources) p.files sources
      ⟨sources, { s with notes := notes ++ skipped ++ s.notes }⟩

end Project

end Outdent
