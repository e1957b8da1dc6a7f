/-! # Why reading and writing fail

The ways in which the work on files is refused, with their wording.
-/
namespace Outdent.Files

inductive Fault where
  | notFound
  | alreadyExists
  | notDirectory
  | isDirectory
  | notText
deriving DecidableEq

def Fault.message : Fault → String
  | .notFound => "No such file or directory (os error 2)"
  | .alreadyExists => "File exists (os error 17)"
  | .notDirectory => "Not a directory (os error 20)"
  | .isDirectory => "Is a directory (os error 21)"
  | .notText => "stream did not contain valid UTF-8"

end Outdent.Files
