import Mathlib.Data.BitVec
import Mathlib.Data.List.Perm.Basic
import Pathwise.Proofs.WordBits
import Pathwise.Term

/-! The meaning of terms. A term is a formula of bit-vector logic: under an assignment of bit vectors
to its symbols a word stands for a vector of its width and a condition for a truth value. The
operations are those of bit vectors with the solvers' conventions (`BitVec.smtSDiv`, remainder by
zero, shifts by an unsigned amount); nothing here refers to the operations on words by which
constructors fold constants.

A word is given a vector at every width, its own among them, so that the definition needs no proof
that the widths inside a term agree. -/

namespace Pathwise

/-- Values for symbols. Symbols of one name and two widths are two symbols. -/
abbrev Valuation := String → (w : Nat) → BitVec w

/-! ### Operators -/

variable {w : Nat}

def UnaryOp.bits : UnaryOp → BitVec w → BitVec w
  | .not, x => ~~~x
  | .neg, x => -x

def BinaryOp.bits : BinaryOp → BitVec w → BitVec w → BitVec w
  | .shl, x, y => x <<< y.toNat
  | .lshr, x, y => x >>> y.toNat
  | .ashr, x, y => x.sshiftRight y.toNat
  | .sdiv, x, y => x.smtSDiv y
  | .srem, x, y => x.srem y

def NaryOp.bits : NaryOp → BitVec w → BitVec w → BitVec w
  | .and, x, y => x &&& y
  | .or, x, y => x ||| y
  | .xor, x, y => x ^^^ y
  | .add, x, y => x + y
  | .mul, x, y => x * y

/-- The vector that changes nothing. -/
def NaryOp.neutral (w : Nat) : NaryOp → BitVec w
  | .and => BitVec.allOnes w
  | .or | .xor | .add => 0#w
  | .mul => 1#w

/-- All vectors of a list combined. -/
def NaryOp.total (op : NaryOp) (xs : List (BitVec w)) : BitVec w := xs.foldr op.bits (op.neutral w)

def CompareOp.bits : CompareOp → BitVec w → BitVec w → Bool
  | .ult, x, y => x.ult y
  | .slt, x, y => x.slt y
  | .sle, x, y => x.sle y
  | .sgt, x, y => y.slt x
  | .sge, x, y => y.sle x
  | .eq, x, y => x == y

/-- All truth values of a list joined. -/
def Connective.total (op : Connective) (xs : List Bool) : Bool := xs.foldr op.apply op.unit

namespace NaryOp

theorem bits_comm (op : NaryOp) (x y : BitVec w) : op.bits x y = op.bits y x := by
  cases op with
  | and => exact BitVec.and_comm x y
  | or => exact BitVec.or_comm x y
  | xor => exact BitVec.xor_comm x y
  | add => exact BitVec.add_comm x y
  | mul => exact BitVec.mul_comm x y

theorem bits_assoc (op : NaryOp) (x y z : BitVec w) : op.bits (op.bits x y) z = op.bits x (op.bits y z) := by
  cases op with
  | and => exact BitVec.and_assoc x y z
  | or => exact BitVec.or_assoc x y z
  | xor => exact BitVec.xor_assoc x y z
  | add => exact BitVec.add_assoc x y z
  | mul => exact BitVec.mul_assoc x y z

@[simp] theorem neutral_bits (op : NaryOp) (x : BitVec w) : op.bits (op.neutral w) x = x := by
  cases op <;> simp [bits, neutral]

@[simp] theorem bits_neutral (op : NaryOp) (x : BitVec w) : op.bits x (op.neutral w) = x := by
  rw [bits_comm, neutral_bits]

theorem bits_left_comm (op : NaryOp) (x y z : BitVec w) :
    op.bits x (op.bits y z) = op.bits y (op.bits x z) := by
  rw [← bits_assoc, bits_comm op x y, bits_assoc]

@[simp] theorem total_nil (op : NaryOp) : op.total ([] : List (BitVec w)) = op.neutral w := rfl

@[simp] theorem total_cons (op : NaryOp) (x : BitVec w) (xs : List (BitVec w)) :
    op.total (x :: xs) = op.bits x (op.total xs) := rfl

theorem total_append (op : NaryOp) (xs ys : List (BitVec w)) :
    op.total (xs ++ ys) = op.bits (op.total xs) (op.total ys) := by
  induction xs with
  | nil => simp
  | cons x xs ih => rw [List.cons_append, total_cons, ih, total_cons, bits_assoc]

theorem total_perm (op : NaryOp) {xs ys : List (BitVec w)} (h : xs.Perm ys) : op.total xs = op.total ys := by
  have : LeftCommutative (op.bits : BitVec w → BitVec w → BitVec w) := ⟨op.bits_left_comm⟩
  exact h.foldr_eq _

end NaryOp

namespace Connective

theorem total_iff_and (xs : List Bool) : Connective.and.total xs = true ↔ ∀ x ∈ xs, x = true := by
  induction xs with
  | nil => simp [total, unit]
  | cons x xs ih =>
      change (x && Connective.and.total xs) = true ↔ _
      rw [Bool.and_eq_true, ih, List.forall_mem_cons]

theorem total_iff_or (xs : List Bool) : Connective.or.total xs = true ↔ ∃ x ∈ xs, x = true := by
  induction xs with
  | nil => simp [total, unit]
  | cons x xs ih =>
      change (x || Connective.or.total xs) = true ↔ _
      rw [Bool.or_eq_true, ih]
      simp

/-- Only which truth values occur counts, not how often or in which order. -/
theorem total_congr (op : Connective) {xs ys : List Bool} (h : ∀ x, x ∈ xs ↔ x ∈ ys) :
    op.total xs = op.total ys := by
  rw [Bool.eq_iff_iff]
  cases op with
  | and => simp only [total_iff_and, h]
  | or => simp only [total_iff_or, h]

theorem total_append (op : Connective) (xs ys : List Bool) :
    op.total (xs ++ ys) = op.apply (op.total xs) (op.total ys) := by
  induction xs with
  | nil => cases op <;> rfl
  | cons x xs ih =>
      change op.apply x (op.total (xs ++ ys)) = op.apply (op.apply x (op.total xs)) (op.total ys)
      rw [ih]
      cases op with
      | and => exact (Bool.and_assoc _ _ _).symm
      | or => exact (Bool.or_assoc _ _ _).symm

end Connective

/-! ### Terms -/

/-- What terms of a sort stand for. -/
def Ty.Meaning : Ty → Type
  | .word => (w : Nat) → BitVec w
  | .bool => Bool

namespace Term

mutual
/-- The meaning of a term. The operands of a comparison are read at the width of the first. -/
def denote (ρ : Valuation) {k : Ty} : Term k → k.Meaning
  | .symbol _ name _ => fun w => ρ name w
  | .const _ c => fun w => c.bits w
  | .ite _ cond yes no => fun w =>
    let guard : Bool := cond.denote ρ
    if guard then yes.denote ρ w else no.denote ρ w
  | .unary _ op arg => fun w => op.bits (arg.denote ρ w)
  | .binary _ op left right => fun w => op.bits (left.denote ρ w) (right.denote ρ w)
  | .nary _ op args => fun w => op.total (wordMeanings ρ w args)
  | .truth _ b => b
  | .not _ arg => Bool.not (arg.denote ρ)
  | .compare _ op left right => op.bits (left.denote ρ left.width) (right.denote ρ left.width)
  | .junction _ op args => op.total (condMeanings ρ args)

def wordMeanings (ρ : Valuation) (w : Nat) : List (Term .word) → List (BitVec w)
  | [] => []
  | t :: ts => t.denote ρ w :: wordMeanings ρ w ts

def condMeanings (ρ : Valuation) : List (Term .bool) → List Bool
  | [] => []
  | t :: ts => t.denote ρ :: condMeanings ρ ts
end

/-- The vector that a word stands for. -/
def bits (ρ : Valuation) (w : Nat) (t : Term .word) : BitVec w := t.denote ρ w

/-- Whether a condition holds. -/
def holds (ρ : Valuation) (p : Cond) : Bool := p.denote ρ

mutual
/-- The symbols of a term by name and width, once for each time they occur. -/
def free {k : Ty} : Term k → List (String × Nat)
  | .symbol _ name width => [(name, width)]
  | .const .. | .truth .. => []
  | .ite _ cond yes no => cond.free ++ yes.free ++ no.free
  | .unary _ _ arg => arg.free
  | .binary _ _ left right => left.free ++ right.free
  | .nary _ _ args => freeWords args
  | .not _ arg => arg.free
  | .compare _ _ left right => left.free ++ right.free
  | .junction _ _ args => freeConds args

def freeWords : List (Term .word) → List (String × Nat)
  | [] => []
  | t :: ts => t.free ++ freeWords ts

def freeConds : List (Term .bool) → List (String × Nat)
  | [] => []
  | t :: ts => t.free ++ freeConds ts
end

/-- Induction over terms, with the arguments of a node taken together. -/
theorem induct {motive : (k : Ty) → Term k → Prop}
    (symbol : ∀ id name width, motive .word (.symbol id name width))
    (const : ∀ id c, motive .word (.const id c))
    (ite : ∀ id cond yes no, motive .bool cond → motive .word yes → motive .word no →
      motive .word (.ite id cond yes no))
    (unary : ∀ id op arg, motive .word arg → motive .word (.unary id op arg))
    (binary : ∀ id op left right, motive .word left → motive .word right →
      motive .word (.binary id op left right))
    (nary : ∀ id op args, (∀ t ∈ args, motive .word t) → motive .word (.nary id op args))
    (truth : ∀ id b, motive .bool (.truth id b))
    (not : ∀ id arg, motive .bool arg → motive .bool (.not id arg))
    (compare : ∀ id op left right, motive .word left → motive .word right →
      motive .bool (.compare id op left right))
    (junction : ∀ id op args, (∀ p ∈ args, motive .bool p) → motive .bool (.junction id op args))
    {k : Ty} (t : Term k) : motive k t :=
  @Term.rec (fun k t => motive k t) (fun ts => ∀ t ∈ ts, motive .word t) (fun ps => ∀ p ∈ ps, motive .bool p)
    symbol const ite unary binary nary truth not compare junction
    (List.forall_mem_nil _) (fun _ _ ht hts => List.forall_mem_cons.mpr ⟨ht, hts⟩)
    (List.forall_mem_nil _) (fun _ _ hp hps => List.forall_mem_cons.mpr ⟨hp, hps⟩) k t

theorem wordMeanings_eq_map (ρ : Valuation) (w : Nat) (ts : List (Term .word)) :
    wordMeanings ρ w ts = ts.map (bits ρ w) := by
  induction ts with
  | nil => rfl
  | cons t ts ih => rw [wordMeanings, ih]; rfl

theorem condMeanings_eq_map (ρ : Valuation) (ps : List Cond) : condMeanings ρ ps = ps.map (holds ρ) := by
  induction ps with
  | nil => rfl
  | cons p ps ih => rw [condMeanings, ih]; rfl

theorem mem_freeWords {s : String × Nat} {ts : List (Term .word)} :
    s ∈ freeWords ts ↔ ∃ t ∈ ts, s ∈ t.free := by
  induction ts with
  | nil => simp [freeWords]
  | cons t ts ih => rw [freeWords, List.mem_append, ih]; simp

theorem mem_freeConds {s : String × Nat} {ps : List Cond} :
    s ∈ freeConds ps ↔ ∃ p ∈ ps, s ∈ p.free := by
  induction ps with
  | nil => simp [freeConds]
  | cons p ps ih => rw [freeConds, List.mem_append, ih]; simp

/-! ### One equation for each kind of node -/

section Equations

variable (ρ : Valuation) (w i : Nat)

@[simp] theorem bits_symbol (name : String) (width : Nat) : (symbol i name width).bits ρ w = ρ name w := rfl

@[simp] theorem bits_const (c : Word) : (const i c).bits ρ w = c.bits w := rfl

@[simp] theorem bits_ite (cond : Cond) (yes no : Term .word) :
    (ite i cond yes no).bits ρ w = if cond.holds ρ then yes.bits ρ w else no.bits ρ w := rfl

@[simp] theorem bits_unary (op : UnaryOp) (t : Term .word) :
    (unary i op t).bits ρ w = op.bits (t.bits ρ w) := rfl

@[simp] theorem bits_binary (op : BinaryOp) (t u : Term .word) :
    (binary i op t u).bits ρ w = op.bits (t.bits ρ w) (u.bits ρ w) := rfl

@[simp] theorem bits_nary (op : NaryOp) (ts : List (Term .word)) :
    (nary i op ts).bits ρ w = op.total (ts.map (bits ρ w)) := by
  rw [← wordMeanings_eq_map]
  rfl

@[simp] theorem holds_truth (b : Bool) : (truth i b).holds ρ = b := rfl

@[simp] theorem holds_not (p : Cond) : (not i p).holds ρ = !p.holds ρ := rfl

@[simp] theorem holds_compare (op : CompareOp) (t u : Term .word) :
    (compare i op t u).holds ρ = op.bits (t.bits ρ t.width) (u.bits ρ t.width) := rfl

@[simp] theorem holds_junction (op : Connective) (ps : List Cond) :
    (junction i op ps).holds ρ = op.total (ps.map (holds ρ)) := by
  rw [← condMeanings_eq_map]
  rfl

end Equations

/-! ### The number of a node does not matter -/

@[simp] theorem id_withId {k : Ty} (n : Nat) (t : Term k) : (t.withId n).id = n := by
  cases t <;> rfl

@[simp] theorem width_withId {k : Ty} (n : Nat) (t : Term k) : (t.withId n).width = t.width := by
  cases t <;> rfl

@[simp] theorem free_withId {k : Ty} (n : Nat) (t : Term k) : (t.withId n).free = t.free := by
  cases t <;> rfl

@[simp] theorem bits_withId (ρ : Valuation) (w n : Nat) (t : Term .word) :
    (t.withId n).bits ρ w = t.bits ρ w := by
  cases t <;> rfl

@[simp] theorem holds_withId (ρ : Valuation) (n : Nat) (p : Cond) : (p.withId n).holds ρ = p.holds ρ := by
  cases p <;> rfl

end Term
end Pathwise
