import Outdent.PositionMap
/-! # The command line

What can be asked for on the command line, the options that exist and where they are known, and
the ways in which a command line can be wrong.
-/
namespace Outdent.CommandLine

inductive Format where
  | text
  | json
deriving DecidableEq

structure TransformRequest where
  /-- The files to take; none stands for all eligible files of the project. -/
  files : List String := []
  outDir : Option String := none
  emitsMap : Bool := false
  resolution : Option Resolution := none
  showsDiff : Bool := false
deriving DecidableEq

inductive Command where
  | transform (request : TransformRequest)
  | check
  | list (format : Format)
deriving DecidableEq

structure Arguments where
  command : Option Command := none
  path : Option String := none
  isVerbose : Bool := false
  isColorless : Bool := false
deriving DecidableEq

/-- Where on a command line an option stands: in front of the command or behind it. -/
inductive Level where
  | top
  | transform
  | check
  | list
deriving DecidableEq

def Level.ofName? (name : String) : Option Level :=
  match name with
  | "transform" => some .transform
  | "check" => some .check
  | "list" => some .list
  | _ => none

inductive Flag where
  | path
  | verbose
  | noColor
  | outDir
  | sourcemap
  | resolution
  | diff
  | format
  | help
  | version
deriving DecidableEq

namespace Flag

def all : List Flag :=
  [.path, .verbose, .noColor, .outDir, .sourcemap, .resolution, .diff, .format, .help, .version]

def longName : Flag → String
  | .path => "path"
  | .verbose => "verbose"
  | .noColor => "no-color"
  | .outDir => "out-dir"
  | .sourcemap => "sourcemap"
  | .resolution => "resolution"
  | .diff => "diff"
  | .format => "format"
  | .help => "help"
  | .version => "version"

def letter? : Flag → Option Char
  | .path => some 'p'
  | .verbose => some 'v'
  | .help => some 'h'
  | .version => some 'V'
  | _ => none

def placeholder? : Flag → Option String
  | .path => some "PATH"
  | .outDir => some "OUT_DIR"
  | .resolution => some "RESOLUTION"
  | .format => some "FORMAT"
  | _ => none

def takesValue (f : Flag) : Bool := f.placeholder?.isSome

def shown (f : Flag) : String :=
  match f.placeholder? with
  | some name => s!"--{f.longName} <{name}>"
  | none => s!"--{f.longName}"

def isKnownAt (f : Flag) : Level → Bool
  | .top => [.path, .verbose, .noColor, .help, .version].contains f
  | .transform =>
    [.path, .verbose, .noColor, .help, .outDir, .sourcemap, .resolution, .diff].contains f
  | .check => [.path, .verbose, .noColor, .help].contains f
  | .list => [.path, .verbose, .noColor, .help, .format].contains f

def ofLongName? (level : Level) (name : String) : Option Flag :=
  all.find? fun f => f.isKnownAt level && f.longName == name

def ofLetter? (level : Level) (letter : Char) : Option Flag :=
  all.find? fun f => f.isKnownAt level && f.letter? == some letter

end Flag

inductive Fault where
  | unknownArgument (argument : String)
  | unknownCommand (name : String)
  | missingValue (argument : String)
  | invalidValue (value argument : String)
  | repeated (argument : String)
  | surplusValue (value argument : String)
deriving DecidableEq

def Fault.message : Fault → String
  | .unknownArgument argument => s!"unexpected argument '{argument}' found"
  | .unknownCommand name => s!"unrecognized subcommand '{name}'"
  | .missingValue argument => s!"a value is required for '{argument}' but none was supplied"
  | .invalidValue value argument => s!"invalid value '{value}' for '{argument}'"
  | .repeated argument => s!"the argument '{argument}' cannot be used multiple times"
  | .surplusValue value argument =>
    s!"unexpected value '{value}' for '{argument}' found; no more were expected"

inductive Stop where
  | help
  | version
  | fault (fault : Fault)
deriving DecidableEq

end Outdent.CommandLine
