import Pathwise.Solver.Index
import Pathwise.Term.Evaluate
import Pathwise.Term.Symbols

/-!
# Constraint solving

A solver keeps a set of constraints and answers questions about a condition together with the
constraints that matter to it: those that share a symbol with it, directly or through a chain of
constraints. What decides a condition is a backend, which is a parameter here.
-/

namespace Pathwise

inductive SatResult where
  | error
  | sat
  | unsat
  | unknown
deriving DecidableEq, Repr

namespace SatResult

def text : SatResult → String
  | .sat => "sat"
  | .unsat => "unsat"
  | .unknown => "unknown"
  | .error => "error"

/-- Results are numbered for clients; a number without result is an error. -/
def ofCode : Int → SatResult
  | 1 => .sat
  | 2 => .unsat
  | 3 => .unknown
  | _ => .error

end SatResult

/-- What decides conditions, with a state of its own. -/
structure Backend (σ : Type) where
  /-- Decides a condition. -/
  check : Cond → σ → Build (SatResult × σ)
  /-- The model of the last condition that was found satisfiable. -/
  model : σ → Option Model
  /-- Up to so many values of a term under models of a condition. -/
  values : Term .word → Cond → Int → σ → Build (List Word)
  /-- The state of a copy. -/
  clone : σ → σ

structure Solver (σ : Type) where
  backend : σ
  /-- In the order in which they were added, each once. -/
  constraints : List Cond := []
  index : SymbolIndex := {}

namespace Solver

variable {σ : Type}

/-- Adds a constraint, unless it is there already or says nothing. -/
def add (s : Solver σ) (p : Cond) : Solver σ :=
  if s.constraints.any (·.id == p.id) ∨ p.truth? = some true then s
  else { s with
    constraints := s.constraints ++ [p]
    index := s.index.enter p.id (p.symbols.map (·.id)) }

def clone (B : Backend σ) (s : Solver σ) : Solver σ := { s with backend := B.clone s.backend }

/-- The constraints that share a symbol with the term, even through a chain of others. -/
def related {k : Ty} (s : Solver σ) (t : Term k) : List Cond :=
  let symbols := s.index.search [] (t.symbols.map (·.id))
  let numbers := symbols.flatMap s.index.mentioning
  s.constraints.filter fun p => numbers.contains p.id

/-- The conjunction of all constraints. -/
def conjunction (s : Solver σ) : Build Cond := Build.all s.constraints

/-- The conjunction of the constraints that matter to a term. A constraint that is constantly false
has no symbols and matters to every term. -/
def slice {k : Ty} (s : Solver σ) (t : Term k) : Build Cond := do
  let slice ← Build.all (s.related t)
  let false_ ← Build.truth false
  if s.constraints.any (·.id == false_.id) then Build.join .and slice false_ else return slice

variable (B : Backend σ)

/-- Decides all constraints together. -/
def satisfiable (s : Solver σ) : Build (SatResult × Solver σ) := do
  let (r, backend) ← B.check (← s.conjunction) s.backend
  return (r, { s with backend })

/-- Decides a condition together with the constraints that matter to it. -/
def check (s : Solver σ) (query : Cond) : Build (SatResult × Solver σ) := do
  let slice ← s.slice query
  let (r, backend) ← B.check (← Build.join .and slice query) s.backend
  return (r, { s with backend })

def model (s : Solver σ) : Option Model := B.model s.backend

/-- Up to `n` values that a term can take under the constraints. -/
def values (s : Solver σ) (t : Term .word) (n : Int) : Build (List Word) := do
  B.values t (← s.slice t) n s.backend

def value? (s : Solver σ) (t : Term .word) : Build (Option Word) := do
  return (← s.values B t 1).head?

end Solver
end Pathwise
