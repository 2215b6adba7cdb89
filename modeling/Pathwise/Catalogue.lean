import Pathwise.Catalogue.Arithmetic
import Pathwise.Catalogue.Loops

/-!
# The catalogue

All programs, sorted by name.
-/

namespace Pathwise.Catalogue

def programs : List Program := [abs, clamp, gcd, max, sign, triangle]

def names : List String := programs.map (·.name)

/-- The program of a name, in any case. Another name is answered with those close to it. -/
def lookup (name : String) : Except CatalogueError Program :=
  match programs.find? (·.name == Text.lower name) with
  | some p => .ok p
  | none => .error (.unknownProgram name (suggest name names))

end Pathwise.Catalogue
