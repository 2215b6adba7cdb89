import Pathwise.Symbolic.Inputs

/-!
# Reports

What a check of a candidate against a reference finds. A counterexample is an input on which the two
were seen to differ. A finding is something that was noticed on the way and keeps the check from
calling the two equivalent.
-/

namespace Pathwise

/-- Which step found something. -/
inductive Stage where
  | generated
  | deviation
  | divergence
  | exploration
  | replay
  | other (name : String)
deriving DecidableEq, Repr, Inhabited

namespace Stage

def text : Stage → String
  | .generated => "generated"
  | .deviation => "deviation"
  | .divergence => "divergence"
  | .exploration => "exploration"
  | .replay => "replay"
  | .other name => name

def ofText : String → Stage
  | "generated" => .generated
  | "deviation" => .deviation
  | "divergence" => .divergence
  | "exploration" => .exploration
  | "replay" => .replay
  | name => .other name

end Stage

inductive FindingKind where
  /-- The oracle claims a difference that running did not show. -/
  | possibleDivergence
  /-- A query was left undecided. -/
  | inconclusive
  | other (name : String)
deriving DecidableEq, Repr, Inhabited

namespace FindingKind

def text : FindingKind → String
  | .possibleDivergence => "possible_divergence"
  | .inconclusive => "inconclusive"
  | .other name => name

def ofText : String → FindingKind
  | "possible_divergence" => .possibleDivergence
  | "inconclusive" => .inconclusive
  | name => .other name

end FindingKind

/-- An observation about one input, if it is about one. -/
structure Finding where
  kind : FindingKind
  stage : Stage
  input : Option Assignments := none
  detail : String := ""
deriving DecidableEq, Inhabited

/-- An input on which the two implementations disagree, with their outcomes. -/
structure Counterexample where
  stage : Stage
  input : Assignments
  reference : String
  candidate : String
deriving DecidableEq, Inhabited

def Counterexample.text (c : Counterexample) : String :=
  s!"on ({c.input.text}): reference returned {c.reference}, candidate returned {c.candidate}"

inductive Verdict where
  /-- No input showed a difference. This is no proof. -/
  | equivalent
  /-- There is a counterexample. -/
  | notEquivalent
  | possiblyDivergent
  | inconclusive
  | other (name : String)
deriving DecidableEq, Repr, Inhabited

namespace Verdict

def text : Verdict → String
  | .equivalent => "equivalent"
  | .notEquivalent => "not_equivalent"
  | .possiblyDivergent => "possibly_divergent"
  | .inconclusive => "inconclusive"
  | .other name => name

def ofText : String → Verdict
  | "equivalent" => .equivalent
  | "not_equivalent" => .notEquivalent
  | "possibly_divergent" => .possiblyDivergent
  | "inconclusive" => .inconclusive
  | name => .other name

/-- The verdict that findings lead to: a possible divergence outweighs an undecided query. -/
def ofFindings : (sofar : Verdict) → List FindingKind → Verdict
  | v, [] => v
  | _, .possibleDivergence :: _ => .possiblyDivergent
  | _, .inconclusive :: ks => ofFindings .inconclusive ks
  | v, .other _ :: ks => ofFindings v ks

/-- The verdict of a check. -/
def decide (counterexample : Option Counterexample) (findings : List Finding) : Verdict :=
  match counterexample with
  | some _ => .notEquivalent
  | none => ofFindings .equivalent (findings.map (·.kind))

end Verdict

structure CheckReport where
  reference : String
  candidate : String
  verdict : Verdict
  counterexample : Option Counterexample := none
  findings : List Finding := []
  /-- The number of inputs that were fully checked. -/
  checked : Nat := 0
deriving DecidableEq, Inhabited

end Pathwise
