import Outdent.Log.Event
import Outdent.Text.Blank
import Outdent.Text.Identifier
/-! # Which events are shown

Directives, separated by commas, say up to which level events are shown: of all targets, or of
those that start in some way, or of those that have a field of some name. Of the directives that
concern an event the most specific one decides. A directive for a stretch of work rather than for
single events is understood and concerns none of them.
-/
namespace Outdent.Log

structure Directive where
  target : Option (List Char) := none
  field : Option (List Char) := none
  concernsEvents : Bool := true
  /-- The least important level shown; none shows nothing. -/
  level : Option Level := some .trace
deriving DecidableEq

def number? (text : List Char) : Option Nat :=
  let digits := match text with
    | '+' :: cs => cs
    | cs => cs
  if digits.isEmpty || !digits.all Char.isDigit then none
  else some (digits.foldl (fun n c => 10 * n + (c.toNat - '0'.toNat)) 0)

/-- The level of a name, in letters of either case, or of a number; the inner none is no level
at all. -/
def level? (text : List Char) : Option (Option Level) :=
  match number? text with
  | some 0 => some none
  | some 1 => some (some .error)
  | some 2 => some (some .warn)
  | some 3 => some (some .info)
  | some 4 => some (some .debug)
  | some 5 => some (some .trace)
  | _ =>
    match String.ofList (text.map Char.toLower) with
    | "off" => some none
    | "error" => some (some .error)
    | "warn" => some (some .warn)
    | "info" => some (some .info)
    | "debug" => some (some .debug)
    | "trace" => some (some .trace)
    | _ => none

def mayStart (c : Char) : Bool :=
  if c.toNat < 0x80 then c == '-' || c == ':' || c == '_' || c.isAlphanum
  else Text.isIdentifierPart c

namespace Directive

/-- Reads the level behind an equals sign; nothing stands for the least important one. -/
def withLevel (d : Directive) (text : List Char) : Option Directive :=
  if text.isEmpty then some { d with level := some .trace }
  else (level? text).map fun level => { d with level }

def withRest (d : Directive) : List Char → Option Directive
  | [] => some d
  | '=' :: text => d.withLevel text
  | _ => none

/-- Reads what stands between brackets: the name of a stretch of work and fields in braces. A
field that has to have a value is looked for in stretches of work only. -/
def withBrackets (d : Directive) (text : List Char) : Option Directive :=
  let name := text.takeWhile fun c => c != ']' && c != '\x7b'
  match text.drop name.length with
  | ']' :: rest => { d with concernsEvents := false }.withRest rest
  | '\x7b' :: rest =>
    let field := rest.takeWhile (· != '\x7d')
    match rest.drop field.length with
    | '\x7d' :: ']' :: rest =>
      if field.isEmpty then none
      else
        { d with
          field := some field
          concernsEvents := name.isEmpty && !field.contains '=' }.withRest rest
    | _ => none
  | _ => none

/-- Reads a directive. Blanks around it are passed over in finding its parts and are counted in
cutting them out. -/
def parse (text : List Char) : Option Directive :=
  let trimmed := Text.trim text
  match trimmed with
  | [] => none
  | '[' :: _ => withBrackets {} (text.drop 1)
  | c :: _ =>
    if !mayStart c then none
    else
      let size := (trimmed.takeWhile fun c => c != '=' && c != '[').length
      match trimmed.drop size with
      | [] =>
        match level? text with
        | some level => some { level }
        | none => some { target := some text }
      | '=' :: _ => withLevel { target := some (text.take size) } (text.drop (size + 1))
      | _ => withBrackets { target := some (text.take size) } (text.drop (size + 1))

def concerns (d : Directive) (e : Event) : Bool :=
  d.concernsEvents &&
    (d.target.all fun target => target.isPrefixOf e.target.toList) &&
    d.field.all fun field =>
      field == "message".toList || e.fields.any fun f => f.1.toList == field

def weight (d : Directive) : Nat × Nat :=
  ((d.target.map fun t => t.length + 1).getD 0, if d.field.isSome then 1 else 0)

def isAsSpecific (d other : Directive) : Bool :=
  other.weight.1 < d.weight.1 || (other.weight.1 == d.weight.1 && other.weight.2 ≤ d.weight.2)

def shows (d : Directive) (e : Event) : Bool :=
  d.level.any fun level => e.level.rank ≤ level.rank

end Directive

def betweenCommas : List Char → List (List Char)
  | [] => [[]]
  | c :: cs =>
    if c = ',' then [] :: betweenCommas cs
    else match betweenCommas cs with
      | [] => [[c]]
      | t :: ts => (c :: t) :: ts

/-- The directives of a text, if all of them can be read. A text without any shows errors only. -/
def directives? (text : List Char) : Option (List Directive) := do
  let all ← ((betweenCommas text).filter (! ·.isEmpty)).mapM Directive.parse
  return if all.isEmpty then [{ level := some .error }] else all

/-- Whether directives show an event: the most specific one that concerns it decides, and the last
of several. -/
def isShown (directives : List Directive) (e : Event) : Bool :=
  let best := (directives.filter (·.concerns e)).foldl (fun best d =>
    match best with
    | some b => if d.isAsSpecific b then some d else some b
    | none => some d) none
  best.any (·.shows e)

/-- The directives in force: those of a text that can be read, or else one level for all. -/
def directivesOr (text : Option String) (level : Level) : List Directive :=
  ((text.bind fun t => directives? t.toList)).getD [{ level := some level }]

end Outdent.Log
