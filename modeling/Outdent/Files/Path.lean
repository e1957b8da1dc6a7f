/-! # Paths

A path is a row of names with separators between them. It is kept as it is spelled: a name may be
empty, where separators are repeated or stand at an end, it may be a dot, which stays where it is,
or two dots, which lead upwards.
-/
namespace Outdent.Files

/-- The names between the separators of a text; there is always one. -/
def namesBetween : List Char → List (List Char)
  | [] => [[]]
  | c :: cs =>
    if c = '/' then [] :: namesBetween cs
    else match namesBetween cs with
      | [] => [[c]]
      | name :: names => (c :: name) :: names

structure Path where
  isAbsolute : Bool
  names : List String
deriving DecidableEq

def isVoid (name : String) : Bool := name == "" || name == "."

namespace Path

def empty : Path := ⟨false, []⟩

def ofText (text : List Char) : Path :=
  let names (cs : List Char) : List String :=
    if cs.isEmpty then [] else (namesBetween cs).map String.ofList
  match text with
  | '/' :: rest => ⟨true, names rest⟩
  | text => ⟨false, names text⟩

def ofString (s : String) : Path := ofText s.toList

def spelling (p : Path) : String :=
  (if p.isAbsolute then "/" else "") ++ String.intercalate "/" p.names

def steps (p : Path) : List String := p.names.filter (! isVoid ·)

def withoutFinalSeparator (names : List String) : List String :=
  if names.getLast? = some "" then names.dropLast else names

/-- A path taken from the end of another one; an absolute path starts anew. -/
def join (p q : Path) : Path :=
  if q.isAbsolute then q else ⟨p.isAbsolute, withoutFinalSeparator p.names ++ q.names⟩

/-- What is left of names after the given steps, with void names passed over on the way. -/
def namesAfter : List String → List String → Option (List String)
  | [], names => some (names.dropWhile isVoid)
  | _ :: _, [] => none
  | s :: ss, n :: names =>
    if isVoid n then namesAfter (s :: ss) names
    else if n = s then namesAfter ss names
    else none

def withoutFinalVoids (names : List String) : List String :=
  (names.reverse.dropWhile isVoid).reverse

/-- The rest of an absolute path below an absolute directory, if its steps start with those of
the directory. Nothing is resolved: two dots count as a name like any other. -/
def below? (p directory : Path) : Option Path :=
  (namesAfter directory.steps p.names).map fun names => ⟨false, withoutFinalVoids names⟩

def fileName? (p : Path) : Option String :=
  match p.steps.getLast? with
  | some name => if name = ".." then none else some name
  | none => none

def ofSteps (steps : List String) : Path := ⟨true, steps⟩

end Path

end Outdent.Files
