/-! # Events

What the program notes about its own work: how important it is, which part notes it, a message and
named values.
-/
namespace Outdent.Log

inductive Level where
  | error
  | warn
  | info
  | debug
  | trace
deriving DecidableEq

namespace Level

def rank : Level → Nat
  | .error => 1
  | .warn => 2
  | .info => 3
  | .debug => 4
  | .trace => 5

def name : Level → String
  | .error => "ERROR"
  | .warn => "WARN"
  | .info => "INFO"
  | .debug => "DEBUG"
  | .trace => "TRACE"

def color : Level → String
  | .error => "\x1b[31m"
  | .warn => "\x1b[33m"
  | .info => "\x1b[32m"
  | .debug => "\x1b[34m"
  | .trace => "\x1b[35m"

def column (l : Level) : String :=
  if l.name.length < 5 then " " ++ l.name else l.name

end Level

structure Event where
  level : Level
  target : String
  message : String
  fields : List (String × String)
deriving DecidableEq

namespace Event

def plain (e : Event) : String :=
  e.level.column ++ " " ++ e.target ++ ": " ++ e.message ++
    String.join (e.fields.map fun (name, value) => " " ++ name ++ "=" ++ value) ++ "\n"

/-- An event as one line, with its level in colour, its target dim and its field names in
italics. -/
def colored (e : Event) : String :=
  e.level.color ++ e.level.column ++ "\x1b[0m \x1b[2m" ++ e.target ++ "\x1b[0m\x1b[2m:\x1b[0m " ++
    e.message ++
    String.join (e.fields.map fun (name, value) =>
      " \x1b[3m" ++ name ++ "\x1b[0m\x1b[2m=\x1b[0m" ++ value) ++ "\n"

def line (isColored : Bool) (e : Event) : String := if isColored then e.colored else e.plain

end Event

end Outdent.Log
