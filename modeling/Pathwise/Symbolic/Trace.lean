import Pathwise.Failure
import Pathwise.Symbolic.Value

/-!
# Traces

A predicate is one decision of a run: a condition and the branch that was taken on it. The trace of
a run is the list of its predicates, and its formula their conjunction.
-/

namespace Pathwise

/-- A condition, whether it held, and its negation, which is built when the decision is recorded. -/
structure Predicate where
  cond : Cond
  taken : Bool
  negation : Cond

/-- What identifies a predicate within one builder. -/
structure PredicateKey where
  cond : Nat
  taken : Bool
deriving DecidableEq, Repr

abbrev Trace := List Predicate

namespace Predicate

def make (cond : Cond) (taken : Bool) : Build Predicate := do
  return ⟨cond, taken, ← Build.boolNot cond⟩

/-- The condition that held. -/
def expr (p : Predicate) : Cond := if p.taken then p.cond else p.negation

/-- The opposite decision on the same condition. -/
def flip (p : Predicate) : Predicate := { p with taken := !p.taken }

def key (p : Predicate) : PredicateKey := ⟨p.cond.id, p.taken⟩

def text (p : Predicate) : String := p.expr.text

end Predicate

namespace Trace

def text (t : Trace) : String := " && ".intercalate (t.map fun p => "[" ++ p.text ++ "]")

def keys (t : Trace) : List PredicateKey := t.map Predicate.key

/-- The conjunction of the predicates, joined one after the other. -/
def formula (t : Trace) : Build Cond := do
  t.foldlM (fun acc p => Build.join .and acc p.expr) (← Build.truth true)

end Trace

/-- A trace put together by hand lacks the condition of a predicate. -/
structure MalformedTrace where
  position : Nat
deriving DecidableEq, Repr

def MalformedTrace.failure (e : MalformedTrace) : Failure :=
  .about .malformedTrace s!"predicate {e.position} has no condition"

namespace Trace

/-- The formula of a trace whose predicates may lack their condition. Predicates before the first
such one are joined all the same. -/
def formula? (t : List (Option Predicate)) : Build (Except MalformedTrace Cond) := do
  go 0 t (← Build.truth true)
where
  go (position : Nat) : List (Option Predicate) → Cond → Build (Except MalformedTrace Cond)
    | [], acc => return .ok acc
    | none :: _, _ => return .error ⟨position⟩
    | some p :: ps, acc => do go (position + 1) ps (← Build.join .and acc p.expr)

/-- Exactly one of two path conditions holds. -/
def deviation (p q : Cond) : Build Cond := do
  let notQ ← Build.boolNot q
  let onlyP ← Build.join .and p notQ
  let notP ← Build.boolNot p
  let onlyQ ← Build.join .and q notP
  Build.join .or onlyP onlyQ

/-- Both path conditions hold and the results differ. -/
def divergence (x y : SymInt) (p q : Cond) : Build Cond := do
  let a ← x.term
  let b ← y.term
  let differ ← Build.notEqual a b
  Build.all [differ, p, q]

end Trace
end Pathwise
