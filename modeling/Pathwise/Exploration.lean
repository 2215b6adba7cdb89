import Pathwise.Engine
import Pathwise.Text.Case

/-!
# Exploration

Exploration generates inputs for a target. The target runs once on seed inputs. Every branch that it
takes on a symbolic value becomes a node of the constraint tree, and a node that has not been
processed asks the oracle for inputs that reach it and then take the other branch. The target runs
on those, from the inputs of the execution that found the node, and so on, until no node is pending,
the cap on executions is reached, or the exploration is cancelled.
-/

namespace Pathwise

/-- The order in which pending nodes are tried. -/
inductive Strategy where
  /-- The earliest first. -/
  | breadthFirst
  /-- The latest first. -/
  | depthFirst
deriving DecidableEq, Repr

namespace Strategy

def text : Strategy → String
  | .breadthFirst => "bfs"
  | .depthFirst => "dfs"

/-- The strategy of a name, in any case. -/
def ofName? (name : String) : Option Strategy :=
  match Text.lower name with
  | "" | "bfs" | "fifo" => some .breadthFirst
  | "dfs" | "lifo" => some .depthFirst
  | _ => none

def unknown (name : String) : Failure := .about .unknownStrategy name

/-- Adds a node to those that wait. The next one to try is the first of the list. -/
def push (s : Strategy) (waiting : List Nat) (n : Nat) : List Nat :=
  match s with
  | .breadthFirst => waiting ++ [n]
  | .depthFirst => n :: waiting

end Strategy

/-- What one execution returned, as it is shown. -/
structure ReturnValue where
  concrete : Int64 := 0
  symbolic : String := ""
  panic : String := ""
deriving DecidableEq, Inhabited

def ReturnValue.ofResult (r : RunResult) : ReturnValue :=
  if r.panicked then { panic := r.panic }
  else { concrete := r.value.value, symbolic := (r.value.origin.map (·.term.text)).getD "" }

structure ExplorationStats where
  /-- Executions, the seed included. -/
  iterations : Nat := 0
  /-- Executions on inputs that came from a node. -/
  processed : Nat := 0
  /-- Nodes whose other branch cannot be reached. -/
  infeasible : Nat := 0
  /-- Nodes that the oracle could not decide. -/
  unknown : Nat := 0
  /-- Executions that took another path than they were meant to. -/
  divergences : Nat := 0
  /-- Nodes that were left when the exploration stopped. -/
  pending : Nat := 0
  /-- The size of the tree. -/
  constraints : Nat := 0
deriving DecidableEq, Inhabited

structure ExplorationResult where
  function : String
  parameters : List String
  inputs : List Assignments := []
  returns : List ReturnValue := []
  stats : ExplorationStats := {}
  /-- Every node was processed and the oracle decided all of them. -/
  complete : Bool := false
deriving DecidableEq, Inhabited

/-- How a target is to be explored. -/
structure Explorer where
  target : Invocation
  strategy : Strategy := .breadthFirst
  /-- The number of executions allowed; 0 allows any number. -/
  cap : Nat := 0
  seed : List (String × Int64) := []
  /-- Parameters that keep one value. Branches on them are not explored. -/
  fixed : List (String × Int64) := []
  /-- Whether executions are reported, which takes their path conditions. -/
  observed : Bool := true
  /-- Whether the exploration is cancelled, by what has happened so far. -/
  cancelled : List Event → Bool := fun _ => false

inductive ExplorerError where
  | noInvocation
  | noOracle
  | invalidCap (cap : Int)
  | unknownParameter (name : String)
deriving DecidableEq, Repr

def ExplorerError.failure : ExplorerError → Failure
  | .noInvocation => .of .noInvocation
  | .noOracle => .of .noOracle
  | .invalidCap cap => .text s!"invalid iteration cap {cap}"
  | .unknownParameter name => .about .unknownParameter name

/-- The value under a name. -/
def settingFor (name : String) (settings : List (String × Int64)) : Option Int64 :=
  (settings.find? (·.1 == name)).map (·.2)

namespace Explorer

/-- Only parameters of the target can be seeded or fixed. -/
def make? (target : Option Invocation) (hasOracle : Bool) (cap : Int)
    (seed fixed : List (String × Int64)) : Except ExplorerError Explorer :=
  match target with
  | none => .error .noInvocation
  | some target =>
    if !hasOracle then .error .noOracle
    else if cap < 0 then .error (.invalidCap cap)
    else
      match (seed ++ fixed).find? (!target.params.contains ·.1) with
      | some (name, _) => .error (.unknownParameter name)
      | none => .ok { target, cap := cap.toNat, seed, fixed }

/-- The inputs of the first execution: fixed values, seeds, and 0 for everything else. -/
def initialInputs (e : Explorer) : InputMap :=
  .ofList (e.target.params.map fun name =>
    match settingFor name e.fixed with
    | some v => ⟨name, v, false⟩
    | none => ⟨name, (settingFor name e.seed).getD 0, true⟩)

end Explorer

/-- The state of an exploration. -/
structure Exploration where
  tree : ConstraintTree := {}
  /-- Nodes to try, the next one first. Some may have been processed meanwhile. -/
  waiting : List Nat := []
  inputs : List Assignments := []
  returns : List ReturnValue := []
  stats : ExplorationStats := {}

namespace Exploration

/-- The node is there and has not been processed. -/
def isPending (tree : ConstraintTree) (i : Nat) : Bool := tree.nodes[i]?.any (!·.processed)

/-- The number of waiting nodes that are not processed. -/
def pending (x : Exploration) : Nat := x.waiting.countP (isPending x.tree)

end Exploration

/-- What looking for the next node to run for comes to. -/
inductive Selection where
  | found (node : TreeNode) (inputs : InputMap)
  /-- Nothing waits any more. -/
  | exhausted
  | cancelled

/-- How an exploration ended. -/
structure ExplorationEnd where
  result : ExplorationResult
  cancelled : Bool
deriving DecidableEq

namespace Explorer

variable {σ : Type}

/-- Runs the target and merges its trace. `node` is what the inputs were made for. -/
def execute (e : Explorer) (x : Exploration) (node : Option TreeNode) (inputs : InputMap) :
    Engine σ Exploration := do
  let (result, trace) ← Engine.call e.target inputs
  let (tree, created) := x.tree.insert trace inputs
  for i in created do
    if let some n := tree.nodes[i]? then
      Engine.emit (.constraint n)
  if e.observed then
    let condition ← Engine.build trace.formula
    Engine.emit (.execution
      { function := e.target.name, inputs := inputs.assignments, result, trace, condition })
  return {
    tree
    waiting := (created.filter (Exploration.isPending tree)).foldl e.strategy.push x.waiting
    inputs := x.inputs ++ [inputs.assignments]
    returns := x.returns ++ [.ofResult result]
    stats := { x.stats with
      iterations := x.stats.iterations + 1
      processed := x.stats.processed + node.isSome.toNat
      divergences := x.stats.divergences + (node.any (!·.isFollowedBy trace)).toNat } }

/-- Marks a node and asks for inputs that take its other branch. -/
def solve (o : Oracle σ) (x : Exploration) (i : Nat) (node : TreeNode) (query : Predicate) :
    Engine σ (Option InputMap × Exploration) := do
  let x := { x with tree := x.tree.mark i }
  match ← Engine.ask o .branch (.counterexample node.asserts query) with
  | .error _ => return (none, { x with stats.unknown := x.stats.unknown + 1 })
  | .ok none => return (none, { x with stats.infeasible := x.stats.infeasible + 1 })
  | .ok (some m) => return (some (node.inputs.applyModel m), x)

/-- Goes through the waiting nodes until one of them gives inputs. Whether the exploration is cancelled is
asked before a node is selected, and not for those that are passed over. -/
def seek (e : Explorer) (o : Oracle σ) : (waiting : List Nat) → Exploration → Engine σ (Selection × Exploration)
  | [], x => return (.exhausted, { x with waiting := [] })
  | i :: waiting, x => do
    match x.tree.nodes[i]? with
    | none => e.seek o waiting x
    | some node =>
      match node.predicate?, node.processed with
      | some query, false =>
        match ← solve o x i node query with
        | (some inputs, x) => return (.found node inputs, { x with waiting })
        | (none, x) =>
          if e.cancelled (← get).events then return (.cancelled, { x with waiting })
          else e.seek o waiting x
      | _, _ => e.seek o waiting x

/-- What is answered at the end. -/
def finish (e : Explorer) (x : Exploration) (cancelled : Bool) : ExplorationEnd :=
  let stats := { x.stats with pending := x.pending, constraints := x.tree.size }
  { result :=
      { function := e.target.name, parameters := e.target.params, inputs := x.inputs,
        returns := x.returns, stats, complete := stats.pending = 0 ∧ stats.unknown = 0 }
    cancelled }

/-- Executes on and on, at most `budget` times. -/
def run (e : Explorer) (o : Oracle σ) : (budget : Nat) → Exploration → Engine σ ExplorationEnd
  | 0, x => return e.finish x false
  | budget + 1, x => do
    if e.cancelled (← get).events then return e.finish x true
    match ← e.seek o x.waiting x with
    | (.exhausted, x) => return e.finish x false
    | (.cancelled, x) => return e.finish x true
    | (.found node inputs, x) => run e o budget (← e.execute x (some node) inputs)

/-- The number of executions after the first one. Without a cap, it is what a counter of 64 bits
can count. -/
def budget (e : Explorer) : Nat := (if e.cap = 0 then Int64.maxValue.toInt.toNat else e.cap) - 1

/-- Explores the target from its initial inputs. -/
def explore (e : Explorer) (o : Oracle σ) : Engine σ ExplorationEnd := do
  e.run o e.budget (← e.execute {} none e.initialInputs)

end Explorer
end Pathwise
