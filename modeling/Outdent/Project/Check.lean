import Outdent.Console
import Outdent.Project.Survey
/-! # Checking a project

A check tells which sources of a project still have usages of the marker. It changes nothing.
-/
namespace Outdent

open Outdent.Console (paint)
open Outdent.Marker (Stats)

structure Conclusion where
  output : String
  remark : String := ""
  isPending : Bool := false
deriving DecidableEq

def Marker.Stats.describe (s : Stats) : String :=
  toString s.importsRemoved ++ " import(s), " ++ toString s.directMatches ++ " tag(s), " ++
    toString s.composedMatches ++ " triple-backtick block(s)"

structure Check where
  pending : List (String × Stats)
  total : Nat
deriving DecidableEq

namespace Check

def ofVisits (visits : List Visit) : Check where
  pending := visits.filterMap fun v => v.result.map fun r => (v.source.id, r.stats)
  total := visits.length

def conclusion (isColored : Bool) (c : Check) : Conclusion :=
  if c.pending.isEmpty then
    { output := paint isColored .green "ok:" ++ s!" no marker usages in {c.total} file(s)\n" }
  else
    { output := String.join (c.pending.map fun (id, stats) =>
        paint isColored .yellow "pending:" ++ s!" {id} ({stats.describe})\n")
      remark := s!"\n{c.pending.length} file(s) still contain marker usages. " ++
        "Run `dedent transform` to rewrite them.\n"
      isPending := true }

theorem isPending_conclusion (isColored : Bool) (c : Check) :
    (c.conclusion isColored).isPending = !c.pending.isEmpty := by
  cases h : c.pending.isEmpty <;> simp [conclusion, h]

end Check

end Outdent
