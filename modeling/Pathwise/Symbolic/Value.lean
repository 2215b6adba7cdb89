import Pathwise.Term.Simplify

/-!
# Tracked values

A tracked value is a concrete value that may know how it came about: the term that it stands for and
the path that records the branches taken on it. Operations on tracked values compute on the concrete
values and, as soon as one operand is symbolic, build the term of the result as well. A result whose
term is a constant is concrete again.

Integers have 64 bits and wrap. Division by zero gives -1, or 1 for a negative dividend, and the
remainder by zero is the dividend.
-/

namespace Pathwise

/-- The width of the words that tracked integers stand for. -/
def intWidth : Nat := 64

/-- What makes a value symbolic: its term, and the number of the path that records its branches. -/
structure Origin (k : Ty) where
  term : Term k
  path : Nat

/-- A value with its origin, if it is symbolic. -/
structure Tracked (α : Type) (k : Ty) where
  value : α
  origin : Option (Origin k) := none

abbrev SymInt := Tracked Int64 .word
abbrev SymBool := Tracked Bool .bool

instance : Inhabited SymInt := ⟨⟨0, none⟩⟩
instance : Inhabited SymBool := ⟨⟨false, none⟩⟩

/-! ### Operations on 64-bit integers -/

namespace Arith

def div (a b : Int64) : Int64 :=
  if b = 0 then if a < 0 then 1 else -1
  else if a = Int64.minValue ∧ b = -1 then a
  else a / b

def rem (a b : Int64) : Int64 :=
  if b = 0 then a else if b = -1 then 0 else a % b

/-- Shift amounts are read as unsigned; 64 or more shifts everything out. -/
def shl (a b : Int64) : Int64 := if 64 ≤ b.toUInt64 then 0 else a <<< b

def ashr (a b : Int64) : Int64 :=
  if 64 ≤ b.toUInt64 then if a < 0 then -1 else 0 else a >>> b

def lshr (a b : Int64) : Int64 :=
  if 64 ≤ b.toUInt64 then 0 else (a.toUInt64 >>> b.toUInt64).toInt64

end Arith

/-- Operations on two integers. -/
inductive IntOp where
  | add
  | sub
  | mul
  | div
  | rem
  | and
  | or
  | xor
  | shl
  | ashr
  | lshr
deriving DecidableEq, Repr

def IntOp.apply : IntOp → Int64 → Int64 → Int64
  | .add, a, b => a + b
  | .sub, a, b => a - b
  | .mul, a, b => a * b
  | .div, a, b => Arith.div a b
  | .rem, a, b => Arith.rem a b
  | .and, a, b => a &&& b
  | .or, a, b => a ||| b
  | .xor, a, b => a ^^^ b
  | .shl, a, b => Arith.shl a b
  | .ashr, a, b => Arith.ashr a b
  | .lshr, a, b => Arith.lshr a b

/-- The term of a result. -/
def IntOp.build : IntOp → Term .word → Term .word → Build (Term .word)
  | .add => Build.add
  | .sub => Build.sub
  | .mul => Build.mul
  | .div => Build.sdiv
  | .rem => Build.srem
  | .and => Build.and
  | .or => Build.or
  | .xor => Build.xor
  | .shl => Build.shift .shl
  | .ashr => Build.shift .ashr
  | .lshr => Build.shift .lshr

def UnaryOp.applyInt : UnaryOp → Int64 → Int64
  | .neg, a => -a
  | .not, a => ~~~a

/-- Comparisons of two integers. -/
inductive IntCompare where
  | lt
  | le
  | gt
  | ge
  | eq
  | ne
deriving DecidableEq, Repr

def IntCompare.apply : IntCompare → Int64 → Int64 → Bool
  | .lt, a, b => decide (a < b)
  | .le, a, b => decide (a ≤ b)
  | .gt, a, b => decide (b < a)
  | .ge, a, b => decide (b ≤ a)
  | .eq, a, b => a == b
  | .ne, a, b => a != b

def IntCompare.build : IntCompare → Term .word → Term .word → Build Cond
  | .lt => Build.compare .slt
  | .le => Build.compare .sle
  | .gt => Build.compare .sgt
  | .ge => Build.compare .sge
  | .eq => Build.compare .eq
  | .ne => Build.notEqual

namespace Tracked

variable {α : Type} {k : Ty}

def isSymbolic (x : Tracked α k) : Bool := x.origin.isSome

def path? (x : Tracked α k) : Option Nat := x.origin.map (·.path)

/-- The value with its term, which is dropped when it is a constant. -/
def ofTerm (v : α) (t : Term k) (path : Nat) : Tracked α k :=
  if t.isConst then { value := v } else { value := v, origin := some ⟨t, path⟩ }

/-- The text of a value: the concrete one, then the term in angle brackets. -/
def text (show_ : α → String) (x : Tracked α k) : String :=
  match x.origin with
  | none => show_ x.value
  | some o => show_ x.value ++ " <" ++ o.term.text ++ ">"

end Tracked

namespace SymInt

def const (v : Int64) : SymInt := { value := v }

/-- The term of an integer, a constant if it is concrete. -/
def term (x : SymInt) : Build (Term .word) :=
  match x.origin with
  | some o => pure o.term
  | none => Build.int x.value.toInt intWidth

def text (x : SymInt) : String := Tracked.text (fun v => toString v.toInt) x

/-- A binary operation. The result is tracked on the path of the first symbolic operand. -/
def binary (op : IntOp) (x y : SymInt) : Build SymInt :=
  let v := op.apply x.value y.value
  match x.path?.or y.path? with
  | none => pure { value := v }
  | some p => do
    let a ← x.term
    let b ← y.term
    return .ofTerm v (← op.build a b) p

def unary (op : UnaryOp) (x : SymInt) : Build SymInt :=
  let v := op.applyInt x.value
  match x.origin with
  | none => pure { value := v }
  | some o => do return .ofTerm v (← Build.unary op o.term) o.path

def compare (op : IntCompare) (x y : SymInt) : Build SymBool :=
  let v := op.apply x.value y.value
  match x.path?.or y.path? with
  | none => pure { value := v }
  | some p => do
    let a ← x.term
    let b ← y.term
    return .ofTerm v (← op.build a b) p

end SymInt

namespace SymBool

def const (v : Bool) : SymBool := { value := v }

def term (b : SymBool) : Build Cond :=
  match b.origin with
  | some o => pure o.term
  | none => Build.truth b.value

def text (b : SymBool) : String := Tracked.text (fun v => if v then "true" else "false") b

def not (b : SymBool) : Build SymBool :=
  match b.origin with
  | none => pure { value := !b.value }
  | some o => do return .ofTerm (!b.value) (← Build.boolNot o.term) o.path

/-- Joins two truth values; both are always evaluated. -/
def join (op : Connective) (x y : SymBool) : Build SymBool :=
  let v := op.apply x.value y.value
  match x.path?.or y.path? with
  | none => pure { value := v }
  | some p => do
    let a ← x.term
    let b ← y.term
    return .ofTerm v (← Build.join op a b) p

end SymBool

namespace SymInt

/-- Chooses one of two integers without taking a branch. -/
def ite (c : SymBool) (x y : SymInt) : Build SymInt :=
  let v := if c.value then x.value else y.value
  match (x.path?.or y.path?).or c.path? with
  | none => pure { value := v }
  | some p => do
    let g ← c.term
    let a ← x.term
    let b ← y.term
    return .ofTerm v (← Build.ite g a b) p

/-- 1 for true and 0 for false. -/
def ofBool (c : SymBool) : Build SymInt := ite c (const 1) (const 0)

end SymInt
end Pathwise
