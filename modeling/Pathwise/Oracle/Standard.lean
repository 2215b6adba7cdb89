import Pathwise.QueryCache.Lru
import Pathwise.QueryCache.Store
import Pathwise.Text.Case
import Pathwise.Text.Digest

/-!
# The oracles at hand

Oracles that need no solver: one that searches a grid, and one that gives prepared answers in turn.
Beside them the solver oracle, which has no solver to ask here, and a cache in front of any of them.
-/

namespace Pathwise

/-- A prepared answer. -/
inductive PreparedAnswer where
  | sat (m : Model)
  | unsat
  | unknown
  | failure (text : String)

def PreparedAnswer.answer : PreparedAnswer → Answer
  | .sat m => .ok (some m)
  | .unsat => .ok none
  | .unknown => .error .unknown
  | .failure text => .error (.other text)

inductive StandardOracle where
  | grid (values : List Int64)
  /-- Answers in order; the last one is repeated. -/
  | prepared (answers : List PreparedAnswer)
  | solver
  | cached (cache : QueryCache (Lru CachedAnswer)) (store : StoreHandle) (inner : StandardOracle)
  /-- The place behind a cache that has no oracle to ask. -/
  | absent

/-- What oracles share: the stores, and how often a grid or prepared answers were asked. -/
structure OracleShared where
  shelf : Shelf := {}
  calls : Nat := 0
deriving Inhabited

namespace StandardOracle

/-- The next prepared answer, and those that remain. Without answers nothing is known. -/
def nextAnswer : List PreparedAnswer → Answer × List PreparedAnswer
  | [] => (.error .unknown, [])
  | [a] => (a.answer, [a])
  | a :: as => (a.answer, as)

def askGrid (values : List Int64) (q : Query) : Build Answer := do
  match ← Grid.solve values (← q.formula) with
  | .ok m => return .ok m
  | .error e => return .error (.evaluation e)

/-- The state that a cache, its store and the oracle behind it work on. -/
abbrev Behind := StoreHandle × StandardOracle × OracleShared

/-- The store behind a cache, among the shared ones. -/
def store : Store Behind where
  get key := fun (h, inner, sh) =>
    let (r, shelf) := h.get key sh.shelf
    (r, h, inner, { sh with shelf })
  put key a := fun (h, inner, sh) =>
    let (r, h, shelf) := h.put key a sh.shelf
    (r, h, inner, { sh with shelf })

/-- What the caches are made of. -/
def caching : Caching (Lru CachedAnswer) Behind := { digest := Text.digest, front := Lru.front, store }

/-- Puts a question to one of these oracles. -/
def ask (q : Query) : StandardOracle → OracleShared →
    Build (Answer × StandardOracle × OracleShared)
  | .grid values, sh => do
    return (← askGrid values q, .grid values, { sh with calls := sh.calls + 1 })
  | .prepared answers, sh =>
    let (a, answers) := nextAnswer answers
    return (a, .prepared answers, { sh with calls := sh.calls + 1 })
  | .solver, sh => do
    let (a, _) ← (SolverOracle.oracle BackendState.backend .absent).ask q ()
    return (a, .solver, sh)
  | .cached cache handle inner, sh => do
    let (a, cache, handle, inner, sh) ←
      QueryCache.lookup caching (← QueryCache.keyOf caching.digest q)
        (fun (h, _, sh) => do
          let (a, inner, sh) ← ask q inner sh
          return (a, h, inner, sh))
        cache (handle, inner, sh)
    return (a, .cached cache handle inner, sh)
  | .absent, sh => return (.error .unknown, .absent, sh)

/-- These oracles as one. -/
def oracle : Oracle (StandardOracle × OracleShared) where
  ask q := fun (o, sh) => o.ask q sh

/-- Closes the store of a cache. -/
def close : StandardOracle → OracleShared →
    Except StoreError Unit × StandardOracle × OracleShared
  | .cached cache store inner, sh =>
    let (r, store, shelf) := store.close sh.shelf
    (r, .cached cache store inner, { sh with shelf })
  | o, sh => (.ok (), o, sh)

end StandardOracle

/-- Why a configured solver cannot be used. -/
inductive SolverChoiceError where
  | unavailable
  | unknownBackend (name : String)
deriving DecidableEq, Repr

def SolverChoiceError.failure : SolverChoiceError → Failure
  | .unavailable => .of .solverUnavailable
  | .unknownBackend name => .about .unknownBackend name

/-- Whether a solver is built in. -/
def solverAvailable : Bool := false

/-- The oracle named in a configuration. -/
def configuredOracle (backend : String) : Except SolverChoiceError StandardOracle :=
  match Text.lower backend with
  | "" | "z3" => if solverAvailable then .ok .solver else .error .unavailable
  | _ => .error (.unknownBackend backend)

end Pathwise
