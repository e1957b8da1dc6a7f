import Outdent.Ignore.Rule
/-! # Walking a tree

The files below a root are those that no rule ignores, on the way to them or themselves. Rules
stand in files of three names; the name that comes first counts most, and for one name the file
that is nearest. Names that start with a dot are ignored where no rule says otherwise. Rules above
the root apply as well.
-/
namespace Outdent.Ignore

open Outdent.Files (Entry Fault Location Path Tree)

/-- Where rules are looked for in a directory, the places that count most first. -/
def ruleFiles : List Location := [[".ignore"], [".gitignore"], [".git", "info", "exclude"]]

def rulesAt (t : Tree) (directory file : Location) : List Rule :=
  match t.get? (directory ++ file) with
  | some (.file content) => rulesOf content
  | _ => []

def pathBytes (names : List String) : List UInt8 :=
  Glob.bytes (String.intercalate "/" names).toList

/-- What the rules in files of one name decide about a location: those of the nearest directory
that say anything. -/
def verdictOf (t : Tree) (file l : Location) (isDirectory : Bool) : Option Verdict :=
  (Tree.ancestors l).reverse.findSome? fun d =>
    verdictIn (rulesAt t d file) (pathBytes (l.drop d.length)) isDirectory

def verdict (t : Tree) (l : Location) (isDirectory : Bool) : Option Verdict :=
  ruleFiles.findSome? fun file => verdictOf t file l isDirectory

def isHidden (name : String) : Bool := name.toList.head? == some '.'

def isSkipped (t : Tree) (l : Location) (isDirectory : Bool) : Bool :=
  match verdict t l isDirectory with
  | some .ignored => true
  | some .kept => false
  | none => (l.getLast?.map isHidden).getD false

def isReached (t : Tree) (root l : Location) : Bool :=
  root.length < l.length && root.isPrefixOf l && !isSkipped t l false &&
    (List.range l.length).all fun n =>
      n ≤ root.length || !isSkipped t (l.take n) true

inductive WalkFault where
  | root (path : String) (fault : Fault)
  | rule (path : String) (line : Nat) (bad : BadLine)
deriving DecidableEq

def WalkFault.message : WalkFault → String
  | .root path fault => s!"{path}: IO error for operation on {path}: {fault.message}"
  | .rule path line bad => s!"{path}: line {line}: {bad.message}"

def badRuleAbove? (t : Tree) (root : Location) : Option WalkFault :=
  (Tree.ancestors root).findSome? fun d =>
    ruleFiles.findSome? fun file =>
      match t.get? (d ++ file) with
      | some (.file content) =>
        (firstBadLine? content).map fun (n, bad) =>
          .rule (Path.ofSteps (d ++ file)).spelling n bad
      | _ => none

/-- The files that a walk comes to, each as the names that lead to it from the root. A root that is
a file is the only one. A root of a hyphen alone stands for no place in the tree. -/
def walk (t : Tree) (directory : Location) (root : Path) :
    Except WalkFault (List (Location × List String)) :=
  if root.spelling == "-" then .ok []
  else
    match t.find directory root with
    | .error fault => .error (.root root.spelling fault)
    | .ok (l, .file _) => .ok [(l, [])]
    | .ok (l, .directory) =>
      match badRuleAbove? t l with
      | some fault => .error fault
      | none =>
        .ok ((t.files.filter fun f => isReached t l f.1).map fun f => (f.1, f.1.drop l.length))

end Outdent.Ignore
