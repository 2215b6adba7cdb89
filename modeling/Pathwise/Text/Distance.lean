/-!
# Edit distance

The least number of insertions, deletions and replacements that turn one sequence into another,
computed row by row. Texts are compared by their characters or by their bytes.
-/

namespace Pathwise.Text

variable {α : Type} [BEq α]

/-- The next row of the distance table: `above` is the row so far, `left` the entry to the left,
`diag` the entry above it. -/
def nextRow (c : α) : (target : List α) → (above : List Nat) → (left diag : Nat) → List Nat
  | t :: ts, up :: ups, left, diag =>
    let here := min (min (left + 1) (up + 1)) (if c == t then diag else diag + 1)
    here :: nextRow c ts ups here up
  | _, _, _, _ => []

/-- The row of distances from the empty text, advanced over `source`. -/
def lastRow (target : List α) : (source : List α) → (row : List Nat) → List Nat
  | [], row => row
  | c :: cs, row =>
    match row with
    | [] => []
    | first :: rest => lastRow target cs ((first + 1) :: nextRow c target rest (first + 1) first)

/-- The distance between two sequences. -/
def distance (source target : List α) : Nat :=
  (lastRow target source (List.range (target.length + 1))).getLastD 0

def editDistance (a b : String) : Nat := distance a.toList b.toList

/-- The distance of the texts' bytes, in which a character beyond ASCII counts several times. -/
def byteDistance (a b : String) : Nat := distance a.toUTF8.toList b.toUTF8.toList

end Pathwise.Text
