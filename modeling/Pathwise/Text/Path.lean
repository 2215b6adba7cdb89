/-!
# Paths

A path is a text of parts with slashes between them. Empty parts and `.` stay where they are, and
`..` goes back by one part.
-/

namespace Pathwise.Text

/-- The parts of a path that lead somewhere. -/
def pathParts (path : String) : List String :=
  (path.splitOn "/").filter fun part => part ≠ "" && part ≠ "."

/-- Takes back what `..` goes back over, on a stack of parts with the last one first. At the root
there is nothing to go back to; elsewhere `..` stays in front. -/
def foldParts (rooted : Bool) : (stack : List String) → List String → List String
  | stack, [] => stack.reverse
  | stack, ".." :: ps =>
    match stack with
    | [] => foldParts rooted (if rooted then [] else [".."]) ps
    | p :: below => foldParts rooted (if p = ".." then ".." :: stack else below) ps
  | stack, p :: ps => foldParts rooted (p :: stack) ps

/-- The shortest path to the same place. -/
def cleanPath (path : String) : String :=
  let rooted := path.startsWith "/"
  let body := "/".intercalate (foldParts rooted [] (pathParts path))
  if rooted then "/" ++ body else if body = "" then "." else body

end Pathwise.Text
