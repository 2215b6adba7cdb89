import Pathwise.Solver

/-!
# Deciding on a grid

The plainest way to decide a condition: try every way to give its symbols values out of a finite
list. What it finds is a model; what it does not find may still exist outside the grid.
-/

namespace Pathwise

namespace Grid

/-- All ways to give the symbols values of the grid, cut to their widths. The first symbol varies
slowest. -/
def assignments (values : List Int64) : List Symbol → List (List (String × Word))
  | [] => [[]]
  | s :: ss =>
    let rest := assignments values ss
    values.flatMap fun v => rest.map ((s.name, Word.ofInt s.width v.toInt) :: ·)

/-- The first model on the grid under which the condition holds. -/
def findModel (p : Cond) : List Model → Build (Except EvalError (Option Model))
  | [] => return .ok none
  | m :: ms => do
    match ← Build.evalBool m p with
    | .error e => return .error e
    | .ok true => return .ok (some m)
    | .ok false => findModel p ms

/-- The model of an assignment. Of several symbols with one name, the last one decides. -/
def model (assignment : List (String × Word)) : Model :=
  ⟨assignment.foldr (fun e es => if (es.map (·.1)).contains e.1 then es else e :: es) []⟩

/-- The models of the grid over the symbols of a condition. -/
def models (values : List Int64) (symbols : List Symbol) : List Model :=
  (assignments values symbols).map model

def solve (values : List Int64) (p : Cond) : Build (Except EvalError (Option Model)) :=
  findModel p (models values p.symbols)

/-- The first model under which the condition has a value and holds. -/
def firstHolding (p : Cond) : List Model → Build (Option Model)
  | [] => return none
  | m :: ms => do
    match ← Build.evalBool m p with
    | .ok true => return some m
    | _ => firstHolding p ms

/-- The distinct values of a term under the models that satisfy the condition, at most `n` of them,
behind those already `found`. -/
def collect (t : Term .word) (p : Cond) (n : Nat) :
    (found : List Word) → List Model → Build (List Word)
  | found, [] => return found
  | found, m :: ms => do
    if n ≤ found.length then return found
    match ← Build.evalBool m p with
    | .ok true =>
      match ← Build.evalWord m t with
      | .ok w => collect t p n (if w ∈ found then found else found ++ [w]) ms
      | .error _ => collect t p n found ms
    | _ => collect t p n found ms

/-- The symbols of two terms together, sorted by name. -/
def jointSymbols (t : Term .word) (p : Cond) : List Symbol :=
  let first := p.symbols
  (first ++ t.symbols.filter (!first.contains ·)).foldr Symbol.insertByName []

end Grid

/-- The backends at hand: none at all, or a grid, which can be told to answer that it does not
know. -/
inductive BackendState where
  | absent
  | grid (values : List Int64) (undecided : Bool) (model : Option Model)

namespace BackendState

def check (p : Cond) : BackendState → Build (SatResult × BackendState)
  | .absent => return (.error, .absent)
  | .grid values true _ => return (.unknown, .grid values true none)
  | .grid values false _ => do
    match ← Grid.firstHolding p (Grid.models values p.symbols) with
    | some m => return (.sat, .grid values false (some m))
    | none => return (.unsat, .grid values false none)

def model : BackendState → Option Model
  | .absent => none
  | .grid _ _ m => m

def values (t : Term .word) (p : Cond) (n : Int) : BackendState → Build (List Word)
  | .grid values false _ =>
    if n ≤ 0 then return []
    else Grid.collect t p n.toNat [] (Grid.models values (Grid.jointSymbols t p))
  | _ => return []

def clone : BackendState → BackendState
  | .absent => .absent
  | .grid values undecided _ => .grid values undecided none

/-- These backends as one. -/
def backend : Backend BackendState where
  check p s := s.check p
  model := model
  values t p n s := s.values t p n
  clone := clone

end BackendState
end Pathwise
