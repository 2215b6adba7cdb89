import Pathwise.Failure
import Pathwise.Model
import Pathwise.Term.Simplify

/-!
# Evaluation under a model

Evaluation replaces the symbols that a model gives a word and simplifies on the way up. Each inner
node is worked on once, its result is kept by number, for words and conditions in one table. Where the
model covers every symbol the result is a constant.
-/

namespace Pathwise

/-- Why a term has no value under a model. -/
inductive EvalError where
  /-- The model's word for a symbol has another width than the symbol. -/
  | symbolWidth (name : String) (actual expected : Nat)
  /-- What came of two operands cannot be put together. -/
  | operands (e : OperandError)
  /-- What is kept under the number of a node is of another sort. -/
  | otherSort (id : Nat)
  /-- Symbols are left over; this is what remains of the term. -/
  | partialModel (rest : String)
deriving DecidableEq, Repr

def EvalError.failure : EvalError → Failure
  | .symbolWidth name actual expected =>
    .text s!"symbol {name}: model value has size {actual}, expected {expected}"
  | .operands e => .text e.message
  | .otherSort id => .text s!"term {id}: result of another sort"
  | .partialModel rest => .about .partialModel rest

/-- Results by number of the node. -/
abbrev Memo := Std.TreeMap Nat (Σ k, Term k)

/-- The state of an evaluation. -/
structure Evaluation where
  builder : Builder
  memo : Memo := {}

abbrev EvalM := ExceptT EvalError (StateM Evaluation)

namespace EvalM

def lift {α : Type} (act : Build α) : EvalM α := fun s =>
  let (a, b) := act s.builder
  (.ok a, { s with builder := b })

/-- A computation that may refuse its operands. -/
def refusing {α : Type} (act : Build (Except OperandError α)) : EvalM α := do
  match ← lift act with
  | .ok a => return a
  | .error e => throw (.operands e)

/-- The kept result for a number, or else the result of `act`, kept from now on. -/
def remember {k : Ty} (id : Nat) (act : EvalM (Term k)) : EvalM (Term k) := do
  match (← get).memo[id]? with
  | some ⟨l, t⟩ => if h : l = k then return h ▸ t else throw (.otherSort id)
  | none =>
    let t ← act
    modify fun s => { s with memo := s.memo.insert id ⟨k, t⟩ }
    return t

end EvalM

namespace Term

open EvalM (lift refusing remember)

mutual
/-- The term with the model's words put in, simplified. -/
def evalM {k : Ty} (m : Model) : Term k → EvalM (Term k)
  | .symbol id name width =>
    match m.find? name with
    | none => return .symbol id name width
    | some c =>
      if c.width = width then lift (Build.const c)
      else throw (.symbolWidth name c.width width)
  | .const id c => return .const id c
  | .truth id b => return .truth id b
  | .ite id cond yes no => remember id do
    let c ← evalM m cond
    let a ← evalM m yes
    let b ← evalM m no
    refusing (Build.Checked.ite c a b)
  | .unary id op arg => remember id do
    let a ← evalM m arg
    lift (Build.unary op a)
  | .binary id op left right => remember id do
    let a ← evalM m left
    let b ← evalM m right
    refusing (Build.Checked.binary (Build.binary op) a b)
  | .nary id op args =>
    match args with
    | [] => return .nary id op []
    | t :: ts => remember id do
      let a ← evalM m t
      evalParts m op a ts
  | .not id arg => remember id do
    let a ← evalM m arg
    lift (Build.boolNot a)
  | .compare id op left right => remember id do
    let a ← evalM m left
    let b ← evalM m right
    refusing (Build.Checked.binary (Build.compare op) a b)
  | .junction id op args => remember id do
    let start ← lift (Build.truth op.unit)
    evalConds m op start args

/-- Combines `acc` with the values of the parts. -/
def evalParts (m : Model) (op : NaryOp) (acc : Term .word) : List (Term .word) → EvalM (Term .word)
  | [] => return acc
  | t :: ts => do
    let a ← evalM m t
    let acc ← refusing (Build.Checked.binary (Build.nary op) acc a)
    evalParts m op acc ts

/-- Joins `acc` with the values of the conditions. -/
def evalConds (m : Model) (op : Connective) (acc : Cond) : List Cond → EvalM Cond
  | [] => return acc
  | p :: ps => do
    let a ← evalM m p
    let acc ← lift (Build.join op acc a)
    evalConds m op acc ps
end

/-- A constant is its own value. -/
theorem evalM_of_isConst (m : Model) {k : Ty} {t : Term k} (h : t.isConst = true) : t.evalM m = pure t := by
  cases t with
  | const i c => rw [evalM]
  | truth i b => rw [evalM]
  | _ => cases h

end Term

namespace Build

/-- Evaluation of a term with a fresh memory. -/
def eval {k : Ty} (m : Model) (t : Term k) : Build (Except EvalError (Term k)) := fun b =>
  let (r, s) := (t.evalM m).run { builder := b }
  (r, s.builder)

/-- The truth value of a condition under a model that covers its symbols. -/
def evalBool (m : Model) (p : Cond) : Build (Except EvalError Bool) := do
  match ← eval m p with
  | .error e => return .error e
  | .ok q =>
    match q.truth? with
    | some b => return .ok b
    | none => return .error (.partialModel q.text)

/-- The value of a word under a model that covers its symbols. -/
def evalWord (m : Model) (t : Term .word) : Build (Except EvalError Word) := do
  match ← eval m t with
  | .error e => return .error e
  | .ok u =>
    match u.const? with
    | some c => return .ok c
    | none => return .error (.partialModel u.text)

end Build
end Pathwise
