import Pathwise.Word

/-!
# Models

A model gives words to some symbols, by name.
-/

namespace Pathwise

/-- Words by name. The first entry of a name counts. -/
structure Model where
  entries : List (String × Word) := []
deriving Inhabited, DecidableEq

namespace Model

def find? (m : Model) (name : String) : Option Word :=
  (m.entries.find? (·.1 == name)).map (·.2)

/-- The entries sorted by name. -/
def sorted (m : Model) : List (String × Word) := m.entries.mergeSort (fun a b => a.1 ≤ b.1)

def text (m : Model) : String :=
  "\x7b" ++ ", ".intercalate (m.sorted.map fun (name, w) => name ++ ": " ++ w.text) ++ "\x7d"

end Model
end Pathwise
