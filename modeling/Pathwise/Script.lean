import Pathwise.Symbolic.Path

/-!
# Scripts

A small imperative language for targets: local variables, integer and truth expressions over the
parameters, branches, bounded loops, and variables that outlive the run. A script can look at its
arguments only through these operations, so what it does is a function of the branches it takes.
-/

namespace Pathwise

mutual
/-- Integer expressions. -/
inductive IntExpr where
  | lit (v : Int64)
  | param (name : String)
  | var (name : String)
  | kept (name : String)
  | unary (op : UnaryOp) (x : IntExpr)
  | binary (op : IntOp) (x y : IntExpr)
  | ite (c : BoolExpr) (x y : IntExpr)
  | ofBool (c : BoolExpr)

/-- Truth expressions. -/
inductive BoolExpr where
  | lit (b : Bool)
  | compare (op : IntCompare) (x y : IntExpr)
  | not (c : BoolExpr)
  | join (op : Connective) (c d : BoolExpr)
end

instance : Inhabited IntExpr := ⟨.lit 0⟩
instance : Inhabited BoolExpr := ⟨.lit false⟩

inductive Stmt where
  /-- Sets a local variable. -/
  | set (name : String) (x : IntExpr)
  /-- Sets a variable that later runs can read. -/
  | keep (name : String) (x : IntExpr)
  | ret (x : IntExpr)
  | panic (text : String)
  | branch (c : BoolExpr) (yes no : List Stmt)
  /-- Repeats the body while the condition holds, at most the given number of times. -/
  | loop (c : BoolExpr) (rounds : Nat) (body : List Stmt)

instance : Inhabited Stmt := ⟨.ret default⟩

abbrev Script := List Stmt

/-- The values of the parameters in one run. -/
abbrev Args := List (String × SymInt)

/-- Values by name, as arguments and variables are held. -/
def lookupValue (name : String) (vs : List (String × SymInt)) : Option SymInt :=
  (vs.find? (·.1 == name)).map (·.2)

/-- The list with a value put under a name. -/
def setValue (name : String) (x : SymInt) : List (String × SymInt) → List (String × SymInt)
  | [] => [(name, x)]
  | (n, y) :: vs => if n = name then (n, x) :: vs else (n, y) :: setValue name x vs

/-- The value of a parameter; asking for one that does not exist ends the run. -/
def Args.value (args : Args) (name : String) : Exec SymInt :=
  match lookupValue name args with
  | some x => pure x
  | none => throw (.unknownParameter name)

namespace Script

/-- The local variables of a run. -/
abbrev Locals := List (String × SymInt)

mutual
/-- Evaluates an integer expression, operands from left to right. Variables that were never set
are 0. -/
def int (args : Args) (locals : Locals) : IntExpr → Exec SymInt
  | .lit v => return .const v
  | .param name => args.value name
  | .var name => return (lookupValue name locals).getD (.const 0)
  | .kept name => do return (lookupValue name (← get).memory).getD (.const 0)
  | .unary op x => do
    let a ← int args locals x
    Exec.build (SymInt.unary op a)
  | .binary op x y => do
    let a ← int args locals x
    let b ← int args locals y
    Exec.build (SymInt.binary op a b)
  | .ite c x y => do
    let g ← bool args locals c
    let a ← int args locals x
    let b ← int args locals y
    Exec.build (SymInt.ite g a b)
  | .ofBool c => do
    let g ← bool args locals c
    Exec.build (SymInt.ofBool g)

def bool (args : Args) (locals : Locals) : BoolExpr → Exec SymBool
  | .lit b => return .const b
  | .compare op x y => do
    let a ← int args locals x
    let b ← int args locals y
    Exec.build (SymInt.compare op a b)
  | .not c => do
    let a ← bool args locals c
    Exec.build (SymBool.not a)
  | .join op c d => do
    let a ← bool args locals c
    let b ← bool args locals d
    Exec.build (SymBool.join op a b)
end

/-- What a statement leaves: the local variables, and the returned value once there is one. -/
abbrev Step := Locals × Option SymInt

/-- Repeats a round while its condition holds and nothing is returned, at most `n` times. -/
def rounds (test : Locals → Exec Bool) (body : Locals → Exec Step) : Nat → Locals → Exec Step
  | 0, locals => return (locals, none)
  | n + 1, locals => do
    if ← test locals then
      match ← body locals with
      | (locals, some x) => return (locals, some x)
      | (locals, none) => rounds test body n locals
    else return (locals, none)

mutual
def stmt (args : Args) (locals : Locals) : Stmt → Exec Step
  | .set name x => do
    let a ← int args locals x
    return (setValue name a locals, none)
  | .keep name x => do
    let a ← int args locals x
    modify fun w => { w with memory := setValue name a w.memory }
    return (locals, none)
  | .ret x => do
    let a ← int args locals x
    return (locals, some a)
  | .panic text => throw (.panic text)
  | .branch c yes no => do
    let g ← bool args locals c
    if ← Exec.branch g then block args locals yes else block args locals no
  | .loop c n body =>
    rounds (fun locals => do Exec.branch (← bool args locals c))
      (fun locals => block args locals body) n locals

/-- Runs statements until one returns. -/
def block (args : Args) (locals : Locals) : List Stmt → Exec Step
  | [] => return (locals, none)
  | s :: ss => do
    match ← stmt args locals s with
    | (locals, some x) => return (locals, some x)
    | (locals, none) => block args locals ss
end

/-- Runs a script. Without a return the result is the concrete 0. -/
def run (s : Script) (args : Args) : Exec SymInt := do
  let (_, result) ← block args [] s
  return result.getD (.const 0)

end Script
end Pathwise
