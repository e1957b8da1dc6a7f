import Outdent.CommandLine.Basic
/-! # Reading a command line

The arguments are read from left to right, first in front of the command and then behind it. An
option that waits for its value, and the files named so far, are settled only when the next option
comes or the level ends, so an argument that is unknown is reported before a value that is wrong.
-/
namespace Outdent.CommandLine

inductive Shape where
  | separator
  | long (name : String) (value : Option String)
  | short (letters : List Char)
  | word
deriving DecidableEq

def cutAtEquals (text : List Char) : String × Option String :=
  let rest := text.dropWhile (· != '=')
  (String.ofList (text.takeWhile (· != '=')),
    if rest.isEmpty then none else some (String.ofList rest.tail))

/-- The shape of an argument. A hyphen alone is a word. -/
def Shape.of (argument : String) : Shape :=
  match argument.toList with
  | '-' :: '-' :: [] => .separator
  | '-' :: '-' :: text => let (name, value) := cutAtEquals text; .long name value
  | '-' :: c :: cs => .short (c :: cs)
  | _ => .word

structure Given where
  path : Option String := none
  isVerbose : Bool := false
  isColorless : Bool := false
  format : Option Format := none
  request : TransformRequest := {}

namespace Given

def has (g : Given) : Flag → Bool
  | .path => g.path.isSome
  | .verbose => g.isVerbose
  | .noColor => g.isColorless
  | .outDir => g.request.outDir.isSome
  | .sourcemap => g.request.emitsMap
  | .resolution => g.request.resolution.isSome
  | .diff => g.request.showsDiff
  | .format => g.format.isSome
  | .help | .version => false

def formatOfName? (name : String) : Option Format :=
  match name with
  | "text" => some .text
  | "json" => some .json
  | _ => none

def resolutionOfName? (name : String) : Option Resolution :=
  match name with
  | "boundary" => some .boundary
  | "char" => some .char
  | _ => none

def withValue (g : Given) (f : Flag) (value : String) : Except Fault Given :=
  if g.has f then .error (.repeated f.shown)
  else if value.isEmpty then .error (.missingValue f.shown)
  else
    match f with
    | .path => .ok { g with path := some value }
    | .outDir => .ok { g with request := { g.request with outDir := some value } }
    | .resolution =>
      match resolutionOfName? value with
      | some r => .ok { g with request := { g.request with resolution := some r } }
      | none => .error (.invalidValue value f.shown)
    | .format =>
      match formatOfName? value with
      | some format => .ok { g with format := some format }
      | none => .error (.invalidValue value f.shown)
    | _ => .ok g

def withFlag (g : Given) (f : Flag) : Except Stop Given :=
  if g.has f then .error (.fault (.repeated f.shown))
  else
    match f with
    | .verbose => .ok { g with isVerbose := true }
    | .noColor => .ok { g with isColorless := true }
    | .sourcemap => .ok { g with request := { g.request with emitsMap := true } }
    | .diff => .ok { g with request := { g.request with showsDiff := true } }
    | .help => .error .help
    | .version => .error .version
    | _ => .ok g

def withFiles (g : Given) (files : List String) : Except Fault Given :=
  if files.contains "" then .error (.missingValue "[FILES]...")
  else .ok { g with request := { g.request with files := g.request.files ++ files } }

end Given

inductive Pending where
  | nothing
  | value (flag : Flag) (value : Option String)
  | files (files : List String)

structure Reading where
  given : Given := {}
  pending : Pending := .nothing
  isPlain : Bool := false

namespace Reading

def isWaiting (r : Reading) : Bool :=
  match r.pending with
  | .value _ none => true
  | _ => false

def settle (r : Reading) : Except Stop Reading :=
  let given : Except Fault Given := match r.pending with
    | .nothing => .ok r.given
    | .value f none => .error (.missingValue f.shown)
    | .value f (some v) => r.given.withValue f v
    | .files files => r.given.withFiles files
  match given with
  | .ok given => .ok { r with given, pending := .nothing }
  | .error fault => .error (.fault fault)

def takeFlag (r : Reading) (f : Flag) : Except Stop Reading := do
  let r ← r.settle
  return { r with given := ← r.given.withFlag f }

def takeValue (r : Reading) (f : Flag) : Option String → Except Stop Reading
  | none => do
    let r ← r.settle
    return { r with pending := .value f none }
  | some value => do
    let r ← r.settle
    match r.given.withValue f value with
    | .ok given => return { r with given }
    | .error fault => throw (.fault fault)

def takeLong (r : Reading) (level : Level) (name : String) (value : Option String) :
    Except Stop Reading :=
  match Flag.ofLongName? level name with
  | none => .error (.fault (.unknownArgument ("--" ++ name)))
  | some f =>
    if f.takesValue then r.takeValue f value
    else
      match value with
      | some v => .error (.fault (.surplusValue v f.shown))
      | none => r.takeFlag f

/-- The value behind a letter: an equals sign in front of it does not count. -/
def valueBehind : List Char → Option String
  | [] => none
  | '=' :: cs => some (String.ofList cs)
  | cs => some (String.ofList cs)

/-- Reads options by their letters; the first that takes a value takes all that follows. -/
def takeLetters (level : Level) : Reading → List Char → Except Stop Reading
  | r, [] => .ok r
  | r, c :: cs =>
    match Flag.ofLetter? level c with
    | none => .error (.fault (.unknownArgument (String.ofList ['-', c])))
    | some f =>
      if f.takesValue then r.takeValue f (valueBehind cs)
      else do takeLetters level (← r.takeFlag f) cs

def takeFile (r : Reading) (file : String) : Except Stop Reading :=
  match r.pending with
  | .files files => .ok { r with pending := .files (files ++ [file]) }
  | _ => do
    let r ← r.settle
    return { r with pending := .files [file] }

/-- Reads an argument that is no plain word of the level; none if it is one. -/
def takeOption (r : Reading) (level : Level) (argument : String) :
    Option (Except Stop Reading) :=
  if r.isPlain then none
  else
    match Shape.of argument with
    | .separator => some (.ok { r with isPlain := true })
    | .long name value => some (r.takeLong level name value)
    | .short letters => some (takeLetters level r letters)
    | .word =>
      match r.pending with
      | .value f none => some (.ok { r with pending := .value f (some argument) })
      | _ => none

end Reading

def readBehind (level : Level) (r : Reading) : List String → Except Stop Given
  | [] => do return (← r.settle).given
  | argument :: rest =>
    match r.takeOption level argument with
    | some next => do readBehind level (← next) rest
    | none =>
      if level = .transform then do readBehind level (← r.takeFile argument) rest
      else .error (.fault (.unknownArgument argument))

/-- What follows a request for help names commands, and no more than one. -/
def readHelp : List String → Stop
  | [] => .help
  | name :: rest =>
    if (Level.ofName? name).isSome || name == "help" then
      match rest with
      | [] => .help
      | surplus :: _ => .fault (.unknownCommand surplus)
    else .fault (.unknownCommand name)

def commandOf (level : Level) (g : Given) : Option Command :=
  match level with
  | .top => none
  | .transform => some (.transform g.request)
  | .check => some .check
  | .list => some (.list (g.format.getD .text))

/-- The arguments given in front of a command and behind it; of a value given at both places the
later one counts. -/
def Arguments.ofGiven (level : Level) (top behind : Given) : Arguments where
  command := commandOf level behind
  path := behind.path <|> top.path
  isVerbose := top.isVerbose || behind.isVerbose
  isColorless := top.isColorless || behind.isColorless

def readTop (r : Reading) : List String → Except Stop Arguments
  | [] => do return .ofGiven .top (← r.settle).given {}
  | argument :: rest =>
    let word := !r.isPlain && !r.isWaiting
    if word && argument == "help" then .error (readHelp rest)
    else
      match if word then Level.ofName? argument else none with
      | some level => do
        let behind ← readBehind level {} rest
        return .ofGiven level (← r.settle).given behind
      | none =>
        match r.takeOption .top argument with
        | some next => do readTop (← next) rest
        | none =>
          if (Level.ofName? argument).isSome || argument == "help" then
            .error (.fault (.unknownArgument argument))
          else .error (.fault (.unknownCommand argument))

def Arguments.read (arguments : List String) : Except Stop Arguments := readTop {} arguments

end Outdent.CommandLine
