import Pathwise.Word

/-!
# Terms

Terms are formulas over machine words: a term of type `word` stands for a word once its symbols have
values, a term of type `bool` for a truth value. Every node carries the number under which a builder
has interned it (`Term.id`); a draft that is not yet interned carries the number 0. Within one
builder two terms are the same tree exactly when their numbers agree, so the functions below compare
children by number.
-/

namespace Pathwise

/-- The two sorts of terms. -/
inductive Ty where
  | word
  | bool
deriving DecidableEq, Repr

/-- Operations on one word. -/
inductive UnaryOp where
  | not
  | neg
deriving DecidableEq, Repr

/-- Operations on two words whose order matters. -/
inductive BinaryOp where
  | shl
  | lshr
  | ashr
  | sdiv
  | srem
deriving DecidableEq, Repr

/-- Operations on two or more words whose order does not matter. -/
inductive NaryOp where
  | and
  | or
  | xor
  | add
  | mul
deriving DecidableEq, Repr

inductive CompareOp where
  | ult
  | slt
  | sle
  | sgt
  | sge
  | eq
deriving DecidableEq, Repr

/-- How conditions are joined. -/
inductive Connective where
  | and
  | or
deriving DecidableEq, Repr

/-- Operations on truth values. -/
inductive TruthOp where
  | not
  | joined (op : Connective)
  | xor
deriving DecidableEq, Repr

inductive Term : Ty → Type where
  | symbol (id : Nat) (name : String) (width : Nat) : Term .word
  | const (id : Nat) (value : Word) : Term .word
  | ite (id : Nat) (cond : Term .bool) (yes no : Term .word) : Term .word
  | unary (id : Nat) (op : UnaryOp) (arg : Term .word) : Term .word
  | binary (id : Nat) (op : BinaryOp) (left right : Term .word) : Term .word
  | nary (id : Nat) (op : NaryOp) (args : List (Term .word)) : Term .word
  | truth (id : Nat) (value : Bool) : Term .bool
  | not (id : Nat) (arg : Term .bool) : Term .bool
  | compare (id : Nat) (op : CompareOp) (left right : Term .word) : Term .bool
  | junction (id : Nat) (op : Connective) (args : List (Term .bool)) : Term .bool

/-- A term that stands for a truth value. -/
abbrev Cond := Term .bool

/-! ### Operators -/

def UnaryOp.sign : UnaryOp → String
  | .not => "~"
  | .neg => "-"

def UnaryOp.apply : UnaryOp → Word → Word
  | .not => Word.not
  | .neg => Word.neg

def BinaryOp.sign : BinaryOp → String
  | .shl => "<<"
  | .lshr => "l>>"
  | .ashr => "a>>"
  | .sdiv => "s/"
  | .srem => "s%"

/-- A shift amount is an unsigned word; at the width or above it shifts everything out. -/
def BinaryOp.apply : BinaryOp → Word → Word → Word
  | .shl, a, b => a.shl b.value
  | .lshr, a, b => a.lshr b.value
  | .ashr, a, b => a.ashr b.value
  | .sdiv, a, b => a.sdiv b
  | .srem, a, b => a.srem b

def NaryOp.sign : NaryOp → String
  | .and => "&"
  | .or => "|"
  | .xor => "^"
  | .add => "+"
  | .mul => "*"

def NaryOp.apply : NaryOp → Word → Word → Word
  | .and => Word.and
  | .or => Word.or
  | .xor => Word.xor
  | .add => Word.add
  | .mul => Word.mul

/-- The word that changes nothing. -/
def NaryOp.unit (width : Nat) : NaryOp → Word
  | .and => .ones width
  | .or => .zero width
  | .xor => .zero width
  | .add => .zero width
  | .mul => .one width

def CompareOp.sign : CompareOp → String
  | .ult => "u<"
  | .slt => "s<"
  | .sle => "s<="
  | .sgt => "s>"
  | .sge => "s>="
  | .eq => "=="

def CompareOp.apply : CompareOp → Word → Word → Bool
  | .ult => Word.ult
  | .slt => Word.slt
  | .sle => Word.sle
  | .sgt => Word.sgt
  | .sge => Word.sge
  | .eq => Word.eq

/-- Whether a word compares so with itself. -/
def CompareOp.reflexive : CompareOp → Bool
  | .sle | .sge | .eq => true
  | .ult | .slt | .sgt => false

/-- The comparison that holds exactly when this one does not, where there is one. -/
def CompareOp.opposite? : CompareOp → Option CompareOp
  | .slt => some .sge
  | .sle => some .sgt
  | .sgt => some .sle
  | .sge => some .slt
  | .ult | .eq => none

def Connective.sign : Connective → String
  | .and => "&&"
  | .or => "||"

/-- The truth value that changes nothing. -/
def Connective.unit : Connective → Bool
  | .and => true
  | .or => false

def Connective.apply : Connective → Bool → Bool → Bool
  | .and => Bool.and
  | .or => Bool.or

def Connective.dual : Connective → Connective
  | .and => .or
  | .or => .and

/-- A negation does not look at its second operand. -/
def TruthOp.apply : TruthOp → Bool → Bool → Bool
  | .not, a, _ => !a
  | .joined op, a, b => op.apply a b
  | .xor, a, b => a != b

def truthText (b : Bool) : String := if b then "T" else "F"

namespace Term

/-! ### Reading a node -/

/-- The number under which the node is interned. -/
def id {k : Ty} : Term k → Nat
  | .symbol id .. | .const id .. | .ite id .. | .unary id .. | .binary id .. | .nary id ..
  | .truth id .. | .not id .. | .compare id .. | .junction id .. => id

/-- The same node under another number. -/
def withId {k : Ty} (id : Nat) : Term k → Term k
  | .symbol _ name width => .symbol id name width
  | .const _ value => .const id value
  | .ite _ cond yes no => .ite id cond yes no
  | .unary _ op arg => .unary id op arg
  | .binary _ op left right => .binary id op left right
  | .nary _ op args => .nary id op args
  | .truth _ value => .truth id value
  | .not _ arg => .not id arg
  | .compare _ op left right => .compare id op left right
  | .junction _ op args => .junction id op args

/-- The number of the node's kind, as shown to clients. -/
def code {k : Ty} : Term k → Nat
  | .symbol .. => 1
  | .const .. => 2
  | .ite .. => 3
  | .unary _ .not _ => 8
  | .unary _ .neg _ => 9
  | .binary _ .shl .. => 10
  | .binary _ .lshr .. => 11
  | .binary _ .ashr .. => 12
  | .nary _ .and _ => 13
  | .nary _ .or _ => 14
  | .nary _ .xor _ => 15
  | .nary _ .add _ => 16
  | .nary _ .mul _ => 17
  | .binary _ .sdiv .. => 18
  | .binary _ .srem .. => 20
  | .compare _ .ult .. => 22
  | .compare _ .slt .. => 26
  | .compare _ .sle .. => 27
  | .compare _ .sgt .. => 28
  | .compare _ .sge .. => 29
  | .compare _ .eq .. => 30
  | .truth .. => 31
  | .not .. => 32
  | .junction _ .and _ => 33
  | .junction _ .or _ => 34

mutual
/-- The width of a word, read off its leftmost leaf. A condition has none and counts as 0. -/
def width {k : Ty} : Term k → Nat
  | .symbol _ _ w => w
  | .const _ c => c.width
  | .ite _ _ yes _ => yes.width
  | .unary _ _ arg => arg.width
  | .binary _ _ left _ => left.width
  | .nary _ _ args => firstWidth args
  | .truth .. | .not .. | .compare .. | .junction .. => 0

def firstWidth : List (Term .word) → Nat
  | [] => 0
  | t :: _ => t.width
end

/-- The value of a constant word. -/
def const? : Term .word → Option Word
  | .const _ c => some c
  | _ => none

/-- The value of a constant condition. -/
def truth? : Term .bool → Option Bool
  | .truth _ b => some b
  | _ => none

def isConst {k : Ty} : Term k → Bool
  | .const .. | .truth .. => true
  | _ => false

/-- The name of a symbol. -/
def name? : Term .word → Option String
  | .symbol _ name _ => some name
  | _ => none

def isZero (t : Term .word) : Bool := t.const?.any Word.isZero

def isOne (t : Term .word) : Bool := t.const?.any Word.isOne

def isOnes (t : Term .word) : Bool := t.const?.any Word.isOnes

/-- One of the two is written as minus the other. -/
def isOpposite (a b : Term .word) : Bool :=
  (match a with
    | .unary _ .neg x => b.id == x.id
    | _ => false) ||
  (match b with
    | .unary _ .neg y => a.id == y.id
    | _ => false)

/-! ### Text -/

/-- Leaves are written without brackets. -/
def isLeaf {k : Ty} : Term k → Bool
  | .symbol .. | .const .. | .truth .. => true
  | _ => false

/-- Brackets around the text of an operand that is not a leaf. -/
def bracketed (leaf : Bool) (text : String) : String :=
  if leaf then text else "(" ++ text ++ ")"

mutual
/-- The formula as text. Operands of an operator that are not leaves stand in brackets. -/
def text {k : Ty} : Term k → String
  | .symbol _ name _ => name
  | .const _ c => c.hex
  | .ite _ cond yes no => "ITE(" ++ cond.text ++ ", " ++ yes.text ++ ", " ++ no.text ++ ")"
  | .unary _ op arg => op.sign ++ bracketed arg.isLeaf arg.text
  | .binary _ op left right =>
    bracketed left.isLeaf left.text ++ " " ++ op.sign ++ " " ++ bracketed right.isLeaf right.text
  | .nary _ op args => (" " ++ op.sign ++ " ").intercalate (wordTexts args)
  | .truth _ b => truthText b
  | .not _ arg => "!" ++ bracketed arg.isLeaf arg.text
  | .compare _ op left right =>
    bracketed left.isLeaf left.text ++ " " ++ op.sign ++ " " ++ bracketed right.isLeaf right.text
  | .junction _ op args => (" " ++ op.sign ++ " ").intercalate (condTexts args)

def wordTexts : List (Term .word) → List String
  | [] => []
  | t :: ts => bracketed t.isLeaf t.text :: wordTexts ts

def condTexts : List (Term .bool) → List String
  | [] => []
  | t :: ts => bracketed t.isLeaf t.text :: condTexts ts
end

theorem wordTexts_eq_map (ts : List (Term .word)) : wordTexts ts = ts.map fun t => bracketed t.isLeaf t.text := by
  induction ts with
  | nil => rfl
  | cons t ts ih => rw [wordTexts, ih, List.map_cons]

theorem condTexts_eq_map (ps : List Cond) : condTexts ps = ps.map fun p => bracketed p.isLeaf p.text := by
  induction ps with
  | nil => rfl
  | cons p ps ih => rw [condTexts, ih, List.map_cons]

end Term
end Pathwise
