import Pathwise.Engine
import Pathwise.Equivalence.Report

/-!
# Checking equivalence

A candidate is checked against a reference on a list of inputs. For each input both are run. Where
they agree, the oracle is asked for an input on which only one of the two takes its present path, and
then, on the paths taken there, for an input on which the results differ. Whatever it comes up with
counts only once running both has confirmed it.
-/

namespace Pathwise

/-- Two implementations to compare. -/
structure Checker where
  reference : Invocation
  candidate : Invocation
  /-- Stop at the first finding. -/
  stopOnFirst : Bool := false
  /-- Findings that were made before the check. -/
  prior : List Finding := []
  /-- Whether the check is cancelled, by what has happened so far. It is asked before each input. -/
  cancelled : List Event → Bool := fun _ => false

inductive CheckerError where
  | noInvocation
  | noOracle
  | builderMismatch
  | parameterMismatch
deriving DecidableEq, Repr

def CheckerError.failure : CheckerError → Failure
  | .noInvocation => .of .noInvocation
  | .noOracle => .of .noOracle
  | .builderMismatch => .of .builderMismatch
  | .parameterMismatch => .of .parameterMismatch

/-- Both runs on one input. -/
structure PairRun where
  inputs : InputMap
  reference : RunResult
  candidate : RunResult
  referencePath : Cond
  candidatePath : Cond

namespace PairRun

def differ (r : PairRun) : Bool := r.reference.outcome ≠ r.candidate.outcome

def counterexample (r : PairRun) (stage : Stage) : Counterexample :=
  { stage, input := r.inputs.assignments,
    reference := r.reference.outcome, candidate := r.candidate.outcome }

end PairRun

/-- What checking one input brings. -/
inductive Discovery where
  | nothing
  | difference (c : Counterexample)
  | finding (f : Finding)
deriving DecidableEq

/-- How a check ended. -/
structure CheckEnd where
  report : CheckReport
  cancelled : Bool
deriving DecidableEq

namespace Checker

/-- Both implementations have to share their builder and their parameters, so that a parameter is
the same symbol in both path conditions. -/
def make? (reference candidate : Option Invocation) (hasOracle : Bool) :
    Except CheckerError Checker :=
  match reference, candidate with
  | some reference, some candidate =>
    if !hasOracle then .error .noOracle
    else if reference.home ≠ candidate.home then .error .builderMismatch
    else if reference.params ≠ candidate.params then .error .parameterMismatch
    else .ok { reference, candidate }
  | _, _ => .error .noInvocation

variable {σ : Type}

/-- Runs one implementation: its result and path condition. -/
def runOne (inv : Invocation) (inputs : InputMap) : Engine σ (RunResult × Cond) := do
  let (result, trace) ← Engine.call inv inputs
  let condition ← Engine.build trace.formula
  Engine.emit (.execution
    { function := inv.name, inputs := inputs.assignments, result, trace, condition })
  return (result, condition)

def runBoth (c : Checker) (inputs : InputMap) : Engine σ PairRun := do
  let (reference, referencePath) ← runOne c.reference inputs
  let (candidate, candidatePath) ← runOne c.candidate inputs
  return { inputs, reference, candidate, referencePath, candidatePath }

def undecided (stage : Stage) (input : Assignments) (e : OracleError) : Finding :=
  { kind := .inconclusive, stage, input := some input, detail := e.failure.message }

def unconfirmed (input : Assignments) : Finding :=
  { kind := .possibleDivergence, stage := .divergence, input := some input
    detail := "solver found diverging results that the concrete run did not reproduce" }

/-- The last stage: an input on the same two paths with different results. -/
def checkDivergence (c : Checker) (o : Oracle σ) (run : PairRun) : Engine σ Discovery := do
  let formula ← Engine.build (Trace.divergence run.reference.value run.candidate.value
    run.referencePath run.candidatePath)
  match ← Engine.ask o .divergence (.solve formula) with
  | .error e => return .finding (undecided .divergence run.inputs.assignments e)
  | .ok none => return .nothing
  | .ok (some m) =>
    let again ← c.runBoth (run.inputs.applyModel m)
    if again.differ then return .difference (again.counterexample .divergence)
    else return .finding (unconfirmed again.inputs.assignments)

/-- The middle stage: an input on one of the two paths and not on the other. -/
def checkDeviation (c : Checker) (o : Oracle σ) (input : Assignments) (run : PairRun) :
    Engine σ Discovery := do
  let formula ← Engine.build (Trace.deviation run.referencePath run.candidatePath)
  match ← Engine.ask o .deviation (.solve formula) with
  | .error e => return .finding (undecided .deviation input e)
  | .ok none => return .nothing
  | .ok (some m) =>
    let deviating ← c.runBoth (run.inputs.applyModel m)
    if deviating.differ then return .difference (deviating.counterexample .deviation)
    else if deviating.reference.panicked || deviating.candidate.panicked then return .nothing
    else c.checkDivergence o deviating

/-- Checks one input through all stages. -/
def checkOne (c : Checker) (o : Oracle σ) (input : Assignments) : Engine σ Discovery := do
  let run ← c.runBoth input.inputMap
  if run.differ then return .difference (run.counterexample .generated)
  else c.checkDeviation o input run

/-- The report at the end of a check. -/
def report (c : Checker) (found : Option Counterexample) (findings : List Finding)
    (checked : Nat) : CheckReport :=
  { reference := c.reference.name, candidate := c.candidate.name
    verdict := Verdict.decide found findings, counterexample := found, findings, checked }

/-- Checks the inputs in order. -/
def checkAll (c : Checker) (o : Oracle σ) :
    List Assignments → List Finding → (checked : Nat) → Engine σ CheckEnd
  | [], findings, checked => return ⟨c.report none findings checked, false⟩
  | input :: inputs, findings, checked => do
    if c.cancelled (← get).events then return ⟨c.report none findings checked, true⟩
    match ← c.checkOne o input with
    | .difference found => return ⟨c.report (some found) findings (checked + 1), false⟩
    | .nothing => c.checkAll o inputs findings (checked + 1)
    | .finding f =>
      if c.stopOnFirst then return ⟨c.report none (findings ++ [f]) (checked + 1), false⟩
      else c.checkAll o inputs (findings ++ [f]) (checked + 1)

/-- The whole check. -/
def check (c : Checker) (o : Oracle σ) (inputs : List Assignments) : Engine σ CheckEnd := do
  let e ← c.checkAll o inputs c.prior 0
  Engine.emit (.verdict e.report.verdict.text)
  return e

/-- Runs both implementations on an input again. -/
def replay (c : Checker) (input : Assignments) : Engine σ (Option Counterexample) := do
  let run ← c.runBoth input.inputMap
  return if run.differ then some (run.counterexample .replay) else none

end Checker
end Pathwise
