import Pathwise.Exploration.Tree
import Pathwise.Invocation
import Pathwise.Oracle

/-!
# Engine

What exploring and checking share: they run targets and ask an oracle, and report what happens as a
list of events.
-/

namespace Pathwise

/-- Which step asked the oracle. -/
inductive QueryKind where
  | branch
  | deviation
  | divergence
deriving DecidableEq, Repr

def QueryKind.text : QueryKind → String
  | .branch => "branch"
  | .deviation => "deviation"
  | .divergence => "divergence"

inductive QueryOutcome where
  | sat
  | unsat
  | error
deriving DecidableEq, Repr

def QueryOutcome.text : QueryOutcome → String
  | .sat => "sat"
  | .unsat => "unsat"
  | .error => "error"

def QueryOutcome.ofAnswer : Answer → QueryOutcome
  | .ok (some _) => .sat
  | .ok none => .unsat
  | .error _ => .error

/-- One run of a target. -/
structure Execution where
  function : String
  inputs : Assignments
  result : RunResult
  trace : Trace
  condition : Cond

/-- What happened, in the order in which it did. -/
inductive Event where
  | execution (e : Execution)
  | query (kind : QueryKind) (outcome : QueryOutcome)
  /-- A node was added to the tree. -/
  | constraint (n : TreeNode)
  | verdict (name : String)

/-- The world, the oracle, and the events so far. -/
structure Session (σ : Type) where
  world : World := {}
  oracle : σ
  events : List Event := []

/-- The computations of the engine. A failing call ends them, and what they did stays. -/
abbrev Engine (σ : Type) := ExceptT CallError (StateM (Session σ))

namespace Engine

variable {σ : Type}

def emit (e : Event) : Engine σ Unit := modify fun s => { s with events := s.events ++ [e] }

def build {α : Type} (act : Build α) : Engine σ α := fun s =>
  let (a, world) := s.world.build act
  (.ok a, { s with world })

/-- Calls a target. -/
def call (inv : Invocation) (inputs : InputMap) : Engine σ (RunResult × Trace) := fun s =>
  let (r, world) := inv.call inputs s.world
  (r, { s with world })

/-- Puts a question to the oracle. -/
def ask (o : Oracle σ) (kind : QueryKind) (q : Query) : Engine σ Answer := do
  let a ← fun s =>
    let ((a, oracle), world) := s.world.build (o.ask q s.oracle)
    ((.ok a, { s with world, oracle }) : Except CallError Answer × Session σ)
  emit (.query kind (.ofAnswer a))
  return a

end Engine
end Pathwise
