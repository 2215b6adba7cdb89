import Pathwise.Symbolic.Trace
import Pathwise.Solver.Grid

/-!
# Oracles

An oracle answers whether a formula can be satisfied, and if so by which model. Exploration asks it
for a counterexample: inputs that satisfy some predicates and not a further one. Oracles may keep a
state of their own, may be wrong, and may fail.
-/

namespace Pathwise

/-- Why a query was left undecided. -/
inductive OracleError where
  | unknown
  /-- The model that came back makes the formula false. -/
  | invalidModel (m : Model)
  /-- There is no solver behind the oracle. -/
  | unavailable
  | evaluation (e : EvalError)
  | other (text : String)
deriving DecidableEq

def OracleError.failure : OracleError → Failure
  | .unknown => .of .oracleUnknown
  | .invalidModel m => .about .invalidModel m.text
  | .unavailable => (Failure.of .solverUnavailable).within "solver failed"
  | .evaluation e => e.failure
  | .other text => .text text

/-- A model, or none when the formula cannot be satisfied. -/
abbrev Answer := Except OracleError (Option Model)

/-- A question to an oracle. -/
inductive Query where
  /-- Is there a model of the formula? -/
  | solve (formula : Cond)
  /-- Is there a model of the asserts in which the query does not hold? -/
  | counterexample (asserts : List Predicate) (query : Predicate)

structure Oracle (σ : Type) where
  ask : Query → σ → Build (Answer × σ)

namespace Oracle

variable {σ : Type}

def solve (o : Oracle σ) (formula : Cond) : σ → Build (Answer × σ) := o.ask (.solve formula)

def findCounterexample (o : Oracle σ) (asserts : List Predicate) (query : Predicate) :
    σ → Build (Answer × σ) :=
  o.ask (.counterexample asserts query)

end Oracle

/-- The question as one formula: the opposite of the query, then the asserts one by one. -/
def Query.formula : Query → Build Cond
  | .solve formula => return formula
  | .counterexample asserts query =>
    asserts.foldlM (fun acc p => Build.join .and acc p.expr) query.flip.expr

namespace SolverOracle

variable {σ : Type} (B : Backend σ)

/-- Refuses a model under which the formula is false. Parts of the formula that the model does not
cover are left alone. -/
def verify (formula : Cond) (m : Model) : Build Answer := do
  match ← Build.eval m formula with
  | .error e => return .error (.evaluation e)
  | .ok p => if p.truth? = some false then return .error (.invalidModel m) else return .ok (some m)

/-- Decides a query with a solver and checks the model against the full formula. -/
def check (s : Solver σ) (query full : Cond) : Build (Answer × Solver σ) := do
  let (r, s) ← s.check B query
  match r with
  | .unsat => return (.ok none, s)
  | .unknown => return (.error .unknown, s)
  | .sat => return (← verify full ((s.model B).getD {}), s)
  | .error => return (.error .unavailable, s)

/-- Every query goes to a fresh solver over the given backend state. Models cover the symbols of
the query and those linked to them through the asserts. -/
def oracle (fresh : σ) : Oracle Unit where
  ask q _ := do
    match q with
    | .solve formula =>
      let (a, _) ← check B { backend := fresh } formula formula
      return (a, ())
    | .counterexample asserts query =>
      let s := asserts.foldl (fun s p => s.add p.expr) ({ backend := fresh } : Solver σ)
      let opposite := query.flip.expr
      let full ← Build.join .and (← s.conjunction) opposite
      let (a, _) ← check B s opposite full
      return (a, ())

end SolverOracle
end Pathwise
