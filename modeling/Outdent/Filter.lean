import Outdent.Glob.Parse
/-! # Which documents are eligible

A document is eligible when its identifier matches one of the included patterns and none of the
excluded ones. An identifier that holds a null character names no file and is never eligible;
in all others a backslash counts as a slash.
-/
namespace Outdent

structure Filter where
  included : List Glob.Pattern
  excluded : List Glob.Pattern

structure PatternFault where
  pattern : String
  fault : Glob.Fault
deriving DecidableEq

def PatternFault.reason (f : PatternFault) : String :=
  s!"error parsing glob '{f.pattern}': {f.fault.message}"

namespace Filter

def defaultIncluded : List String := ["**/*.\x7bjs,cjs,mjs,ts,cts,mts,jsx,tsx\x7d"]

def defaultExcluded : List String := ["**/node_modules/**"]

def readPatterns : List String → Except PatternFault (List Glob.Pattern)
  | [] => .ok []
  | p :: ps => do
    match Glob.Pattern.parse .path p.toList with
    | .ok pattern => return pattern :: (← readPatterns ps)
    | .error fault => throw ⟨p, fault⟩

/-- The patterns of a configured list; an empty list stands for the defaults. -/
def patternsOr (defaults configured : List String) : Except PatternFault (List Glob.Pattern) :=
  readPatterns (if configured.isEmpty then defaults else configured)

def ofPatterns (included excluded : List String) : Except PatternFault Filter := do
  return { included := ← patternsOr defaultIncluded included
           excluded := ← patternsOr defaultExcluded excluded }

def default : Filter :=
  match ofPatterns [] [] with
  | .ok filter => filter
  | .error _ => ⟨[], []⟩

def slashed (id : List Char) : List Char := id.map fun c => if c = '\\' then '/' else c

def isEligible (filter : Filter) (id : String) : Bool :=
  let cs := id.toList
  if cs.contains '\x00' then false
  else
    let path := Glob.bytes (slashed cs)
    filter.included.any (·.matchesBytes path) && !filter.excluded.any (·.matchesBytes path)

end Filter

end Outdent
