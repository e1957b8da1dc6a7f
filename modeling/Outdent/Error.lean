import Outdent.Files.Fault
import Outdent.Filter
import Outdent.Options
/-! # Errors

Every way in which the work on a document can fail, with its diagnostic code, its wording and the
advice that goes with it.
-/
namespace Outdent

inductive Error where
  | io (fault : Files.Fault)
  /-- The document is no valid module; the point is the first fault in it. What the parser says of
  the fault is no part of the error, and its message ends where that would follow. -/
  | parse (id : String) (line column : Nat)
  | edit (id : String) (fault : EditError)
  | pattern (fault : PatternFault)
  /-- The configuration cannot be read; the position is the first fault in it. What the reader says
  of the fault is no part of the error either. -/
  | config (line column : Nat)
deriving DecidableEq

namespace Error

def code : Error → String
  | .io _ => "dedent::io_error"
  | .parse _ _ _ => "dedent::parse"
  | .edit _ (.invalid _ _) => "dedent::invalid_edit"
  | .edit _ (.overlapping _ _) => "dedent::overlapping_edits"
  | .pattern _ => "dedent::invalid_pattern"
  | .config _ _ => "dedent::config_parse"

def help : Error → Option String
  | .io _ => none
  | .parse _ _ _ => some "the file must be a valid JavaScript or TypeScript module"
  | .edit _ (.invalid _ _) => none
  | .edit _ (.overlapping _ _) =>
    some "this is a bug in the tag matcher, please report it with the offending file"
  | .pattern _ => some "include and exclude entries use glob syntax, e.g. `src/**/*.ts`"
  | .config _ _ =>
    some "check that dedent.toml is valid TOML with `include`, `exclude` and `sourcemap` keys"

def message : Error → String
  | .io fault => fault.message
  | .parse id line column => s!"failed to parse `{id}` at {line}:{column}: "
  | .edit id (.invalid range size) =>
    s!"invalid edit in `{id}`: range {range.render} is not a valid span of a {size} byte document"
  | .edit id (.overlapping first second) =>
    s!"overlapping edits in `{id}`: {first.render} overlaps {second.render}"
  | .pattern fault => s!"invalid glob pattern `{fault.pattern}`: {fault.reason}"
  | .config line column =>
    s!"failed to parse config file: TOML parse error at line {line}, column {column}"

end Error

end Outdent
