import Outdent.Files.Fault
import Outdent.Files.Path
/-! # File trees

A tree gives to some locations a directory or a file. A location is the row of names that leads to
it from the top, which is always a directory. Paths are followed name by name, so a path may pass
through two dots only where a directory is.
-/
namespace Outdent.Files

/-- The names that lead to a place from the top, none of them void or leading upwards. -/
abbrev Location := List String

inductive Content where
  | text (text : List Char)
  | bytes (bytes : List UInt8)
deriving DecidableEq

def Content.ofBytes (bytes : List UInt8) : Content :=
  match String.fromUTF8? ⟨bytes.toArray⟩ with
  | some s => .text s.toList
  | none => .bytes bytes

inductive Entry where
  | directory
  | file (content : Content)
deriving DecidableEq

structure Tree where
  entries : List (Location × Entry)
deriving DecidableEq

namespace Tree

def empty : Tree := ⟨[]⟩

def get? (t : Tree) (l : Location) : Option Entry :=
  if l.isEmpty then some .directory else t.entries.lookup l

def isDirectoryAt (t : Tree) (l : Location) : Bool := t.get? l == some .directory

def put (t : Tree) (l : Location) (e : Entry) : Tree :=
  ⟨(l, e) :: t.entries.filter fun old => old.1 != l⟩

@[simp] theorem get?_put_self (t : Tree) {l : Location} (e : Entry) (h : l ≠ []) :
    (t.put l e).get? l = some e := by
  simp [get?, put, h]

theorem lookup_filter_ne {l m : Location} (h : m ≠ l) (entries : List (Location × Entry)) :
    (entries.filter fun old => old.1 != l).lookup m = entries.lookup m := by
  have differs : (m == l) = false := by simpa using h
  induction entries with
  | nil => rfl
  | cons x xs ih =>
    obtain ⟨k, e⟩ := x
    by_cases hk : k = l
    · subst hk
      simp [List.lookup_cons, ih, differs]
    · simp [hk, List.lookup_cons, ih]

theorem get?_put_of_ne (t : Tree) {l m : Location} (e : Entry) (h : m ≠ l) :
    (t.put l e).get? m = t.get? m := by
  have differs : (m == l) = false := by simpa using h
  by_cases hm : m = []
  · simp [get?, hm]
  · simp [get?, hm, put, List.lookup_cons, differs, lookup_filter_ne h]

/-- Follows names from a location: where they lead, whether or not anything is there. Whatever is
left behind on the way has to be a directory. -/
def follow (t : Tree) : Location → List String → Except Fault Location
  | l, [] => .ok l
  | l, name :: names =>
    match t.get? l with
    | none => .error .notFound
    | some (.file _) => .error .notDirectory
    | some .directory =>
      if isVoid name then t.follow l names
      else if name = ".." then t.follow l.dropLast names
      else t.follow (l ++ [name]) names

def locate (t : Tree) (directory : Location) (p : Path) : Except Fault Location :=
  if p = .empty then .error .notFound
  else t.follow (if p.isAbsolute then [] else directory) p.names

def find (t : Tree) (directory : Location) (p : Path) : Except Fault (Location × Entry) := do
  let l ← t.locate directory p
  match t.get? l with
  | some e => return (l, e)
  | none => throw .notFound

def isFile (t : Tree) (directory : Location) (p : Path) : Bool :=
  match t.find directory p with
  | .ok (_, .file _) => true
  | _ => false

def read (t : Tree) (directory : Location) (p : Path) : Except Fault (List Char) := do
  match ← t.find directory p with
  | (_, .directory) => throw .isDirectory
  | (_, .file (.bytes _)) => throw .notText
  | (_, .file (.text text)) => return text

/-- Makes the directories that are missing along some steps from a location. A file in the way is
met by name where it is the last step or anything had to be made before it; otherwise it fails as
a step on the way. What was made remains. -/
def makeDirectories (t : Tree) (made : Bool) : Location → List String → Tree × Option Fault
  | _, [] => (t, none)
  | l, name :: names =>
    if name = ".." then t.makeDirectories made l.dropLast names
    else
      match t.get? (l ++ [name]) with
      | some .directory => t.makeDirectories made (l ++ [name]) names
      | some (.file _) =>
        (t, some (if made || names.isEmpty then .alreadyExists else .notDirectory))
      | none => (t.put (l ++ [name]) .directory).makeDirectories true (l ++ [name]) names

def write (t : Tree) (directory : Location) (p : Path) (text : List Char) : Tree × Option Fault :=
  match t.locate directory p with
  | .error fault => (t, some fault)
  | .ok l =>
    match t.get? l with
    | some .directory => (t, some .isDirectory)
    | some (.file _) => (t.put l (.file (.text text)), none)
    | none =>
      if t.isDirectoryAt l.dropLast then (t.put l (.file (.text text)), none)
      else (t, some .notFound)

def ancestors (l : Location) : List Location :=
  (List.range l.length).map fun n => l.take n

def insert (t : Tree) (l : Location) (e : Entry) : Tree :=
  let withWay := (ancestors l).foldl (fun t a =>
    if (t.get? a).isSome then t else t.put a .directory) t
  if e == .directory && (withWay.get? l).isSome then withWay else withWay.put l e

def files (t : Tree) : List (Location × Content) :=
  t.entries.filterMap fun
    | (l, .file content) => some (l, content)
    | (_, .directory) => none

def changedSince (t earlier : Tree) : List (Location × Content) :=
  t.files.filter fun f => earlier.get? f.1 != some (.file f.2)

end Tree

end Outdent.Files
