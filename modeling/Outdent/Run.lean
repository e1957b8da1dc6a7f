import Outdent.CommandLine.Read
import Outdent.Log.Directive
import Outdent.Project.Listing
import Outdent.Project.Rewriting
/-! # Running the program

A run takes a tree of files and a command line to what is printed, a status and the tree that is
left. The status is 0 if nothing is left to do, 1 if something is, and 2 if the run fails.
-/
namespace Outdent

open Outdent.CommandLine (Arguments Command Format Stop TransformRequest)
open Outdent.Console (paint)
open Outdent.Files (Location Tree)

structure Invocation where
  arguments : List String
  directory : Location
  allowsColor : Bool
  log : Option String

structure Output where
  status : Nat
  output : String
  errors : String
  details : String := ""
  files : Tree

namespace Failure

def firstLine (text : String) : String := String.ofList (text.toList.takeWhile (· != '\n'))

def headline (isColored : Bool) : Failure → String
  | .document e => if isColored then "\x1b[31m" ++ e.code ++ "\x1b[0m" else e.code
  | .file fault => paint isColored .red "error:" ++ " " ++ fault.message
  | .walk fault => paint isColored .red "error:" ++ " " ++ firstLine fault.message

def details : Failure → String
  | .document e =>
    "  " ++ e.message ++ "\n" ++ (e.help.map fun help => "  help: " ++ help ++ "\n").getD ""
  | _ => ""

end Failure

structure Presentation where
  isColored : Bool
  directives : List Log.Directive

namespace Presentation

def noteText (p : Presentation) : Note → String
  | .event e => if Log.isShown p.directives e then e.line p.isColored else ""
  | .skipped id => paint p.isColored .yellow "skip:" ++ s!" {id} is excluded by the filter\n"

def notesText (p : Presentation) (notes : List Note) : String :=
  String.join (notes.map p.noteText)

end Presentation

/-- The output of a survey: after a failure `kept` of what was printed on the way, and otherwise
the conclusion. -/
def Survey.output (s : Survey) (p : Presentation) (kept : String) (c : Conclusion) : Output :=
  match s.failure with
  | some failure =>
    { status := 2
      output := kept
      errors := p.notesText s.notes ++ failure.headline p.isColored ++ "\n"
      details := failure.details
      files := s.files }
  | none =>
    { status := if c.isPending then 1 else 0
      output := c.output
      errors := p.notesText s.notes ++ c.remark
      files := s.files }

namespace Project

def inspected (p : Project) : Result := p.survey {} fun _ => {}

/-- Goes through a project, or the named files, and delivers what is rewritten. -/
def rewritten (p : Project) (r : TransformRequest) (notesSkipped : Bool) : Result :=
  p.survey ⟨⟨r.emitsMap, r.resolution⟩, r.files, notesSkipped⟩
    fun sources => (Delivery.of r sources).action p.directory

def check (p : Project) (shown : Presentation) : Output :=
  let s := p.inspected.survey
  s.output shown "" ((Check.ofVisits s.visits).conclusion shown.isColored)

def list (p : Project) (shown : Presentation) (format : Format) : Output :=
  let s := p.inspected.survey
  s.output shown "" ((Listing.ofVisits s.visits).conclusion shown.isColored format)

def transform (p : Project) (shown : Presentation) (r : TransformRequest) (notesSkipped : Bool) :
    Output :=
  let result := p.rewritten r notesSkipped
  let delivery := Delivery.of r result.sources
  let printed := String.join (result.survey.visits.map (delivery.shown shown.isColored))
  let tally := Tally.ofVisits result.survey.visits
  result.survey.output shown printed
    { output := printed, remark := delivery.remark tally.rewritten tally.total }

end Project

def versionText : String := "dedent_cli 0.3.0\n"

def helpText : String :=
  "Usage: dedent [OPTIONS] [COMMAND]\n\nCommands:\n" ++
    "  transform [FILES]...  Rewrite source files\n" ++
    "  check                 Check that no eligible file still contains marker usages\n" ++
    "  list                  List eligible files with the marker usages found in them\n\n" ++
    "Options:\n" ++
    "  -p, --path <PATH>  Path to the project root directory\n" ++
    "  -v, --verbose      Enable verbose output\n" ++
    "      --no-color     Disable colored output\n" ++
    "  -h, --help         Print help\n" ++
    "  -V, --version      Print version\n"

def Output.ofStop (files : Tree) : Stop → Output
  | .help => { status := 0, output := helpText, errors := "", files }
  | .version => { status := 0, output := versionText, errors := "", files }
  | .fault fault =>
    { status := 2, output := ""
      errors := "error: " ++ Failure.firstLine fault.message ++ "\n"
      details := "\nFor more information, try '--help'.\n"
      files }

def Output.ofNothing (files : Tree) : Output :=
  { status := 1, output := ""
    errors := "No subcommand specified. Run `dedent --help` for usage.\n"
    files }

def Command.run (files : Tree) (i : Invocation) (a : Arguments) (c : Command) : Output :=
  let project := Project.ofPath files i.directory a.path
  let shown : Presentation :=
    ⟨i.allowsColor && !a.isColorless,
      Log.directivesOr i.log (if a.isVerbose then .debug else .warn)⟩
  match c with
  | .check => project.check shown
  | .list format => project.list shown format
  | .transform request => project.transform shown request a.isVerbose

def run (files : Tree) (i : Invocation) : Output :=
  match Arguments.read i.arguments with
  | .error stop => .ofStop files stop
  | .ok a =>
    match a.command with
    | none => .ofNothing files
    | some c => Command.run files i a c

end Outdent
