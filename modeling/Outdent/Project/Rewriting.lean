import Outdent.CommandLine.Basic
import Outdent.Console
import Outdent.Diff.Script
import Outdent.Project.Check
import Outdent.Project.Placement
/-! # Rewriting a project

The sources of a project, or the files that are named, are rewritten. The result is written below
an output directory, shown as a difference, printed if a single file is named, or else only told
about.
-/
namespace Outdent

open Outdent.CommandLine (TransformRequest)
open Outdent.Console (paint)
open Outdent.Diff (Mark)
open Outdent.Files (Location Path)

inductive Delivery where
  | diff
  | directory (outDir : Path)
  | print
  | tell
deriving DecidableEq

namespace Delivery

def of (r : TransformRequest) (sources : List Source) : Delivery :=
  if r.showsDiff then .diff
  else
    match r.outDir with
    | some outDir => .directory (.ofString outDir)
    | none => if r.files.length == 1 && sources.length == 1 then .print else .tell

def action (d : Delivery) (directory : Location) : Action where
  perform files v :=
    match d with
    | .directory outDir => Placement.perform directory outDir files v
    | _ => (files, none)
  notes v := [.event (Log.processed v.source.id v.result.isSome)]

/-- A line of a difference. A line without an ending gets one. -/
def diffLine (isColored : Bool) : Mark × List Char → String
  | (mark, line) =>
    let text := String.ofList
      (if line.getLast? = some '\n' || line.getLast? = some '\r' then line else line ++ ['\n'])
    match mark with
    | .same => " " ++ text
    | .removed => paint isColored .red ("-" ++ text)
    | .added => paint isColored .green ("+" ++ text)

def shown (isColored : Bool) (d : Delivery) (v : Visit) : String :=
  match d, v.result with
  | .diff, some r =>
    paint isColored .bold ("--- " ++ v.source.id) ++ "\n" ++
      String.join ((Diff.ofTexts v.text r.code).map (diffLine isColored))
  | .diff, none => ""
  | .directory _, _ => ""
  | .print, _ => String.ofList v.code
  | .tell, some r =>
    paint isColored .green "rewrote" ++ s!" {v.source.id} ({r.stats.describe})\n"
  | .tell, none => ""

def remark (d : Delivery) (rewritten total : Nat) : String :=
  match d with
  | .print => ""
  | _ => s!"{rewritten} of {total} file(s) rewritten\n"

end Delivery

structure Tally where
  rewritten : Nat
  total : Nat
deriving DecidableEq

namespace Tally

def ofVisits (visits : List Visit) : Tally where
  rewritten := (visits.filter (·.result.isSome)).length
  total := visits.length

theorem rewritten_ofVisits (visits : List Visit) :
    (ofVisits visits).rewritten = (Check.ofVisits visits).pending.length := by
  simp only [ofVisits, Check.ofVisits]
  induction visits with
  | nil => rfl
  | cons v rest ih =>
    cases h : v.result <;> simp [h, ih]

end Tally

end Outdent
