import Std.Data.TreeSet
import Pathwise.Term

/-!
# The symbols of a term

The free symbols of a term, each once, sorted by name. The walk visits every node once, by its
number, and the last child of a node first; symbols of one name and several widths keep the order in
which the walk meets them.
-/

namespace Pathwise

/-- A free symbol: its number, name and width. -/
structure Symbol where
  id : Nat
  name : String
  width : Nat
deriving DecidableEq, Repr

/-- What a walk has seen: the numbers of the nodes, and the symbols in reverse. -/
structure Walk where
  visited : Std.TreeSet Nat := {}
  found : List Symbol := []

namespace Term

mutual
/-- Walks on through a term. -/
def visit {k : Ty} (w : Walk) (t : Term k) : Walk :=
  if w.visited.contains t.id then w
  else
    let w := { w with visited := w.visited.insert t.id }
    match t with
    | .symbol id name width => { w with found := ⟨id, name, width⟩ :: w.found }
    | .const .. | .truth .. => w
    | .ite _ cond yes no => visit (visit (visit w cond) no) yes
    | .unary _ _ arg => visit w arg
    | .binary _ _ left right => visit (visit w right) left
    | .nary _ _ args => visitWords w args
    | .not _ arg => visit w arg
    | .compare _ _ left right => visit (visit w right) left
    | .junction _ _ args => visitConds w args
termination_by structural t

def visitWords (w : Walk) (ts : List (Term .word)) : Walk :=
  match ts with
  | [] => w
  | t :: ts => visit (visitWords w ts) t
termination_by structural ts

def visitConds (w : Walk) (ts : List (Term .bool)) : Walk :=
  match ts with
  | [] => w
  | t :: ts => visit (visitConds w ts) t
termination_by structural ts
end

end Term

def Symbol.insertByName (s : Symbol) : List Symbol → List Symbol
  | [] => [s]
  | t :: ts => if s.name ≤ t.name then s :: t :: ts else t :: insertByName s ts

/-- The free symbols of a term, sorted by name. -/
def Term.symbols {k : Ty} (t : Term k) : List Symbol :=
  (t.visit {}).found.reverse.foldr Symbol.insertByName []

end Pathwise
