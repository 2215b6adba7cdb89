import Pathwise.Term.Builder

/-!
# Constructors that simplify

Every operation on terms has a constructor that answers with a simplified term of the same meaning.
Constants are folded, units and absorbing elements disappear, sums, products and bit operations are
flattened and kept in the order of their parts' numbers, opposite summands and equal operands of an
exclusive or cancel, negation is pushed inward.

They are written for every monad that can put terms together, `MonadTerms`. The constructors in `Build` take
operands of one width and check nothing; those in `Build.Checked` are for operands of any widths and
refuse two different ones.
-/

namespace Pathwise

namespace Term

/-- The parts of a term under an operator: its arguments, or the term alone. -/
def parts (op : NaryOp) (t : Term .word) : List (Term .word) :=
  match t with
  | .nary _ o args => if o = op then args else [t]
  | _ => [t]

/-- The parts of a condition under a connective. -/
def condParts (op : Connective) (p : Cond) : List Cond :=
  match p with
  | .junction _ o args => if o = op then args else [p]
  | _ => [p]

/-- The constants among the terms, folded onto `acc`, and the other terms in their order. -/
def foldConsts (op : NaryOp) (acc : Word) : List (Term .word) → Word × List (Term .word)
  | [] => (acc, [])
  | t :: ts =>
    match t.const? with
    | some c => foldConsts op (op.apply acc c) ts
    | none =>
      let (c, rest) := foldConsts op acc ts
      (c, t :: rest)

/-- Removes pairs of related terms: each term goes together with the first waiting one that it is
related to, and otherwise waits itself. -/
def cancel (related : Term .word → Term .word → Bool) (waiting : List (Term .word)) :
    List (Term .word) → List (Term .word)
  | [] => waiting
  | t :: ts =>
    if waiting.any (related · t) then cancel related (waiting.eraseP (related · t)) ts
    else cancel related (waiting ++ [t]) ts

/-- One of each number: a term that occurs again later is dropped. -/
def dedup {k : Ty} : List (Term k) → List (Term k)
  | [] => []
  | t :: ts => if ts.any (·.id == t.id) then dedup ts else t :: dedup ts

def insertById {k : Ty} (t : Term k) : List (Term k) → List (Term k)
  | [] => [t]
  | u :: us => if t.id ≤ u.id then t :: u :: us else u :: insertById t us

/-- Ascending by number. -/
def sortById {k : Ty} (ts : List (Term k)) : List (Term k) := ts.foldr insertById []

end Term

/-- Why operands were refused. -/
inductive OperandError where
  | sizes
  | branchSizes
deriving DecidableEq, Repr

def OperandError.message : OperandError → String
  | .sizes => "different sizes"
  | .branchSizes => "invalid sizes in ITE"

/-- Computations that put terms together, and where they may look at what they are given. -/
class MonadTerms (m : Type → Type) [Monad m] where
  /-- A computation over the builder. -/
  build {α : Type} : Build α → m α
  /-- Interns a node. -/
  node {k : Ty} : Term k → m (Term k)
  /-- Folds two constants into one and answers with it. -/
  fold {α : Type} {k : Ty} : (Word → Word → α) → Word → Word → (α → Build (Term k)) → m (Term k)
  /-- Goes on with two operands that are to have one width. -/
  sized {α : Type} : OperandError → Term .word → Term .word → m α → m α
  /-- A step that has to succeed. -/
  surely {α : Type} : m α → m α

/-- Without any check. -/
instance : MonadTerms Build where
  build act := act
  node := Build.intern
  fold op a b answer := answer (op a b)
  sized _ _ _ act := act
  surely act := act

namespace Build

open Term

/-- Joins two conditions. A constant operand decides the result or leaves the other operand. -/
def join (op : Connective) (p q : Cond) : Build Cond :=
  match p.truth?, q.truth? with
  | some a, _ => if a = op.unit then pure q else truth (!op.unit)
  | none, some b => if b = op.unit then pure p else truth (!op.unit)
  | none, none =>
    match sortById (dedup (p.condParts op ++ q.condParts op)) with
    | [r] => pure r
    | rs => intern (.junction 0 op rs)

def all (ps : List Cond) : Build Cond := do
  ps.foldlM (join .and) (← truth true)

end Build

namespace MonadTerms

open Term

variable {m : Type → Type} [Monad m] [MonadTerms m]

def const (c : Word) : m (Term .word) := build (Build.const c)

def truth (b : Bool) : m Cond := build (Build.truth b)

/-! ### Words -/

/-- The term of parts that cannot be simplified further. -/
def collect (op : NaryOp) (width : Nat) : List (Term .word) → m (Term .word)
  | [] => const (op.unit width)
  | [t] => pure t
  | ts => node (.nary 0 op (sortById ts))

/-- Adds the folded constant to the other parts, unless it changes nothing. -/
def collectWith (op : NaryOp) (width : Nat) (c : Word) (rest : List (Term .word)) : m (Term .word) :=
  if c = op.unit width then collect op width rest
  else do
    let t ← const c
    collect op width (rest ++ [t])

def add (x y : Term .word) : m (Term .word) :=
  match x.const?, y.const? with
  | some a, some b => fold Word.add a b Build.const
  | _, _ =>
    if x.isZero then pure y
    else if y.isZero then pure x
    else if x.isOpposite y then const (.zero x.width)
    else
      let (c, rest) := foldConsts .add (.zero x.width) (x.parts .add ++ y.parts .add)
      collectWith .add x.width c (cancel isOpposite [] rest)

def mul (x y : Term .word) : m (Term .word) :=
  if x.isOne then pure y
  else if y.isOne then pure x
  else if x.isZero then pure x
  else if y.isZero then pure y
  else
    let (c, rest) := foldConsts .mul (.one x.width) (x.parts .mul ++ y.parts .mul)
    if c.isZero then const (.zero x.width) else collectWith .mul x.width c rest

def and (x y : Term .word) : m (Term .word) :=
  if x.isZero then pure x
  else if y.isZero then pure y
  else if x.isOnes then pure y
  else if y.isOnes then pure x
  else if x.id = y.id then pure x
  else
    let (c, rest) := foldConsts .and (.ones x.width) (x.parts .and ++ y.parts .and)
    if c.isZero then const (.zero x.width) else collectWith .and x.width c (dedup rest)

def or (x y : Term .word) : m (Term .word) :=
  if x.isZero then pure y
  else if y.isZero then pure x
  else if x.isOnes then pure x
  else if y.isOnes then pure y
  else if x.id = y.id then pure x
  else
    let (c, rest) := foldConsts .or (.zero x.width) (x.parts .or ++ y.parts .or)
    if c.isOnes then const (.ones x.width) else collectWith .or x.width c (dedup rest)

def xor (x y : Term .word) : m (Term .word) :=
  if x.isZero then pure y
  else if y.isZero then pure x
  else if x.id = y.id then const (.zero x.width)
  else
    let (c, rest) := foldConsts .xor (.zero x.width) (x.parts .xor ++ y.parts .xor)
    collectWith .xor x.width c (cancel (fun a b => a.id == b.id) [] rest)

def nary : NaryOp → Term .word → Term .word → m (Term .word)
  | .and => and
  | .or => or
  | .xor => xor
  | .add => add
  | .mul => mul

/-- Shifts. A constant amount is cut down to the width first; only the arithmetic shift keeps a
shift by the whole width. -/
def shift (op : BinaryOp) (x y : Term .word) : m (Term .word) :=
  match y.const? with
  | none => node (.binary 0 op x y)
  | some amount =>
    if amount.isZero then pure x
    else
      match x.const? with
      | some c => const (op.apply c amount)
      | none =>
        if x.width ≤ amount.value ∧ op ≠ .ashr then const (.zero x.width)
        else node (.binary 0 op x y)

def sdiv (x y : Term .word) : m (Term .word) :=
  match x.const?, y.const? with
  | some a, some b => fold Word.sdiv a b Build.const
  | _, _ => if y.isOne then pure x else node (.binary 0 .sdiv x y)

def srem (x y : Term .word) : m (Term .word) :=
  match x.const?, y.const? with
  | some a, some b => fold Word.srem a b Build.const
  | _, _ =>
    if x.id = y.id ∨ y.isOne then const (.zero x.width) else node (.binary 0 .srem x y)

def binary : BinaryOp → Term .word → Term .word → m (Term .word)
  | .shl => shift .shl
  | .lshr => shift .lshr
  | .ashr => shift .ashr
  | .sdiv => sdiv
  | .srem => srem

def ite (guard : Cond) (yes no : Term .word) : m (Term .word) :=
  match guard.truth? with
  | some true => pure yes
  | some false => pure no
  | none => if yes.id = no.id then pure yes else node (.ite 0 guard yes no)

def bitNot (x : Term .word) : m (Term .word) :=
  match x with
  | .const _ c => const c.not
  | .unary _ .not y => pure y
  | _ => node (.unary 0 .not x)

/-! ### Conditions and opposites -/

def compare (op : CompareOp) (x y : Term .word) : m Cond :=
  match x.const?, y.const? with
  | some a, some b => fold op.apply a b Build.truth
  | _, _ => if x.id = y.id then truth op.reflexive else node (.compare 0 op x y)

mutual
/-- The opposite of a term: minus a word, and the negation of a condition. It goes through sums,
conjunctions, disjunctions and comparisons to the parts. Neither adding up the opposites of a sum's
parts nor turning a comparison round is allowed to fail. -/
def negate {k : Ty} : Term k → m (Term k)
  | .const _ c => const c.neg
  | .unary i op arg => if op = .neg then pure arg else node (.unary 0 .neg (.unary i op arg))
  | .nary i op args =>
    match op, args with
    | .add, t :: ts => do negateSum (← negate t) ts
    | op, args => node (.unary 0 .neg (.nary i op args))
  | .symbol i name width => node (.unary 0 .neg (.symbol i name width))
  | .ite i cond yes no => node (.unary 0 .neg (.ite i cond yes no))
  | .binary i op left right => node (.unary 0 .neg (.binary i op left right))
  | .truth _ b => truth (!b)
  | .not _ arg => pure arg
  | .compare i op left right =>
    match op.opposite? with
    | some op' => surely (node (.compare 0 op' left right))
    | none => node (.not 0 (.compare i op left right))
  | .junction i op args =>
    match args with
    | p :: ps => do negateJoin op.dual (← negate p) ps
    | [] => node (.not 0 (.junction i op []))

/-- Adds the opposites of the terms to `acc`. -/
def negateSum (acc : Term .word) : List (Term .word) → m (Term .word)
  | [] => pure acc
  | t :: ts => do
    let n ← negate t
    negateSum (← surely (sized .sizes acc n (add acc n))) ts

/-- Joins the negations of the conditions to `acc`. -/
def negateJoin (op : Connective) (acc : Cond) : List Cond → m Cond
  | [] => pure acc
  | p :: ps => do
    let n ← negate p
    negateJoin op (← build (Build.join op acc n)) ps
end

def unary : UnaryOp → Term .word → m (Term .word)
  | .not => bitNot
  | .neg => negate

/-- Subtraction negates the second operand before the widths are looked at. -/
def sub (x y : Term .word) : m (Term .word) := do
  let n ← negate y
  sized .sizes x n (add x n)

def notEqual (x y : Term .word) : m Cond := do
  negate (← sized .sizes x y (compare .eq x y))

end MonadTerms

/-! ### Without checks -/

namespace Build

open Term

section

variable {α : Type} {k : Ty}

@[simp] theorem build_eq (act : Build α) : (MonadTerms.build act : Build α) = act := rfl

@[simp] theorem const_eq (c : Word) : (MonadTerms.const c : Build (Term .word)) = const c := rfl

@[simp] theorem truth_eq (b : Bool) : (MonadTerms.truth b : Build Cond) = truth b := rfl

@[simp] theorem node_eq (draft : Term k) : (MonadTerms.node draft : Build (Term k)) = intern draft := rfl

@[simp] theorem fold_eq (op : Word → Word → α) (a b : Word) (answer : α → Build (Term k)) :
    (MonadTerms.fold op a b answer : Build (Term k)) = answer (op a b) := rfl

@[simp] theorem sized_eq (e : OperandError) (x y : Term .word) (act : Build α) :
    MonadTerms.sized e x y act = act := rfl

@[simp] theorem surely_eq (act : Build α) : MonadTerms.surely act = act := rfl

end

abbrev collect : NaryOp → Nat → List (Term .word) → Build (Term .word) := MonadTerms.collect

abbrev collectWith : NaryOp → Nat → Word → List (Term .word) → Build (Term .word) := MonadTerms.collectWith

abbrev add : Term .word → Term .word → Build (Term .word) := MonadTerms.add

abbrev mul : Term .word → Term .word → Build (Term .word) := MonadTerms.mul

abbrev and : Term .word → Term .word → Build (Term .word) := MonadTerms.and

abbrev or : Term .word → Term .word → Build (Term .word) := MonadTerms.or

abbrev xor : Term .word → Term .word → Build (Term .word) := MonadTerms.xor

abbrev nary : NaryOp → Term .word → Term .word → Build (Term .word) := MonadTerms.nary

abbrev shift : BinaryOp → Term .word → Term .word → Build (Term .word) := MonadTerms.shift

abbrev sdiv : Term .word → Term .word → Build (Term .word) := MonadTerms.sdiv

abbrev srem : Term .word → Term .word → Build (Term .word) := MonadTerms.srem

abbrev binary : BinaryOp → Term .word → Term .word → Build (Term .word) := MonadTerms.binary

abbrev ite : Cond → Term .word → Term .word → Build (Term .word) := MonadTerms.ite

abbrev bitNot : Term .word → Build (Term .word) := MonadTerms.bitNot

abbrev compare : CompareOp → Term .word → Term .word → Build Cond := MonadTerms.compare

abbrev negate {k : Ty} : Term k → Build (Term k) := MonadTerms.negate

abbrev negateSum : Term .word → List (Term .word) → Build (Term .word) := MonadTerms.negateSum

abbrev negateJoin : Connective → Cond → List Cond → Build Cond := MonadTerms.negateJoin

abbrev neg : Term .word → Build (Term .word) := negate

abbrev boolNot : Cond → Build Cond := negate

abbrev unary : UnaryOp → Term .word → Build (Term .word) := MonadTerms.unary

abbrev sub : Term .word → Term .word → Build (Term .word) := MonadTerms.sub

abbrev notEqual : Term .word → Term .word → Build Cond := MonadTerms.notEqual

/-- Nothing else can be done with a word that is no constant, has no sign and is no sum. -/
theorem negate_of_atom {x : Term .word} (hconst : x.isConst = false) (hneg : ∀ i t, x ≠ .unary i .neg t)
    (hsum : ∀ i ts, x ≠ .nary i .add ts) : negate x = intern (.unary 0 .neg x) := by
  cases x with
  | symbol i name width => rw [negate, MonadTerms.negate, node_eq]
  | const i c => cases hconst
  | ite i cond yes no => rw [negate, MonadTerms.negate, node_eq]
  | unary i op arg =>
      have hop : op ≠ .neg := by
        rintro rfl
        exact hneg i arg rfl
      rw [negate, MonadTerms.negate, if_neg hop, node_eq]
  | binary i op left right => rw [negate, MonadTerms.negate, node_eq]
  | nary i op args =>
      rw [negate, MonadTerms.negate, node_eq]
      rintro t ts rfl rfl
      exact hsum i (t :: ts) rfl

/-- Nothing else can be done with a condition that is no constant, no negation and no junction, unless it is a
comparison with an opposite. -/
theorem negate_of_stuck {p : Cond} (hconst : p.isConst = false) (hnot : ∀ i q, p ≠ .not i q)
    (hjunction : ∀ i op qs, p ≠ .junction i op qs)
    (hcompare : ∀ i op x y, p = .compare i op x y → op.opposite? = none) : negate p = intern (.not 0 p) := by
  cases p with
  | truth i v => cases hconst
  | not i q => exact absurd rfl (hnot i q)
  | compare i op left right => rw [negate, MonadTerms.negate, hcompare i op left right rfl, node_eq]
  | junction i op args => exact absurd rfl (hjunction i op args)

end Build

namespace Build.Checked

/-- A constructor on two words, for operands of one width only. -/
def binary {k : Ty} (make : Term .word → Term .word → Build (Term k)) (x y : Term .word) :
    Build (Except OperandError (Term k)) :=
  if x.width = y.width then do return .ok (← make x y) else return .error .sizes

/-- Subtraction negates the second operand before the widths are compared. -/
def sub (x y : Term .word) : Build (Except OperandError (Term .word)) := do
  binary add x (← neg y)

def ite (guard : Cond) (yes no : Term .word) : Build (Except OperandError (Term .word)) :=
  if yes.width = no.width then do return .ok (← Build.ite guard yes no)
  else return .error .branchSizes

end Build.Checked
end Pathwise
