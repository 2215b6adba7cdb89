import Pathwise.Corpus
import Pathwise.Text.Path

/-!
# Hosts

What a command needs from its surroundings: files, environment, time and output. Failures are told in
the words of the operating system, behind what was tried and the path as it was given.
-/

namespace Pathwise

/-- Why a path does not lead where it should. -/
inductive PathError where
  | missing
  | notDirectory
  | isDirectory
  | nameTooLong
  | invalid
deriving DecidableEq, Repr

namespace PathError

def text : PathError → String
  | .missing => "no such file or directory"
  | .notDirectory => "not a directory"
  | .isDirectory => "is a directory"
  | .nameTooLong => "file name too long"
  | .invalid => "invalid argument"

/-- The error of an action on a path. -/
def message (action path : String) (e : PathError) : String := s!"{action} {path}: {e.text}"

end PathError

/-- The surroundings of a command. -/
structure Host (m : Type → Type) where
  /-- Whether there is something at the end of a path. -/
  stat : String → m (Except PathError Unit)
  /-- The text of a file, or why it cannot be had. -/
  read : String → m (Except String String)
  write : String → String → m (Except String Unit)
  /-- Opens a file of answers, which is made if it is not there. -/
  openAnswers : String → m (Except String Unit)
  /-- Makes a directory and those around it. -/
  makeDirectory : String → m (Except String Unit)
  /-- The names directly in a directory, with the texts of those that are files. -/
  list : String → m (List (String × Option String))
  /-- A variable of the environment, empty when it is not set. -/
  env : String → m String
  stamp : m Stamp
  print : String → m Unit

end Pathwise
