/-!
# Machine words

A `Word` is a vector of `width` bits, kept as the natural number below `2 ^ width` that its bits
spell. The operations are the two's complement ones of bit-vector solvers: arithmetic wraps,
division truncates toward zero, and division and remainder by zero have a value.

The plain operations read both operands at the width of the first. Their checked form,
`Word.checked`, refuses operands of two widths.
-/

namespace Pathwise

/-- A bit vector of the given width, as the number its bits spell. -/
structure Word where
  width : Nat
  value : Nat
  lt : value < Nat.pow 2 width

/-- Two operands of one operation had these widths. -/
structure WidthMismatch where
  left : Nat
  right : Nat
deriving DecidableEq, Repr

def WidthMismatch.message (e : WidthMismatch) : String :=
  s!"different sizes {e.left} and {e.right}"

namespace Word

instance : DecidableEq Word := fun a b =>
  if h : a.width = b.width ∧ a.value = b.value then
    isTrue (by cases a; cases b; obtain ⟨hw, hv⟩ := h; cases hw; cases hv; rfl)
  else
    isFalse (fun e => h ⟨congrArg width e, congrArg value e⟩)

/-- The low `width` bits of `n`. -/
def ofNat (width n : Nat) : Word :=
  ⟨width, n % Nat.pow 2 width, Nat.mod_lt _ (Nat.two_pow_pos width)⟩

/-- The two's complement form of `v`: its residue modulo `2 ^ width`. -/
def ofInt (width : Nat) (v : Int) : Word :=
  ofNat width (v % (Nat.pow 2 width : Int)).toNat

instance : Inhabited Word := ⟨ofNat 1 0⟩

def zero (width : Nat) : Word := ofNat width 0

def one (width : Nat) : Word := ofNat width 1

/-- The word whose bits are all set. -/
def ones (width : Nat) : Word := ofInt width (-1)

/-! ### Views -/

/-- The top bit is set. -/
def isNegative (a : Word) : Bool := Nat.pow 2 a.width ≤ 2 * a.value

def isZero (a : Word) : Bool := a.value == 0

def isOne (a : Word) : Bool := a.value == 1

def isOnes (a : Word) : Bool := a.value + 1 == Nat.pow 2 a.width

/-- The value as a signed integer. -/
def toInt (a : Word) : Int :=
  if a.isNegative then (a.value : Int) - Nat.pow 2 a.width else a.value

/-- The unsigned value fits in 64 bits. -/
def fitsInt64 (a : Word) : Bool := a.value < UInt64.size

/-- The signed value as a 64-bit integer, exact for words of at most 64 bits. -/
def toInt64 (a : Word) : Int64 := Int64.ofInt a.toInt

/-- The low 64 bits. -/
def toUInt64 (a : Word) : UInt64 := UInt64.ofNat a.value

/-- The 64-bit word of an integer. -/
def ofInt64 (v : Int64) : Word := ofInt 64 v.toInt

/-- The value in lower-case hexadecimal, without leading zeros. -/
def hex (a : Word) : String := "0x" ++ String.ofList (Nat.toDigits 16 a.value)

/-- A word with its width, as in `<BV8 0xff>`. -/
def text (a : Word) : String := s!"<BV{a.width} {a.hex}>"

/-! ### Operations -/

def not (a : Word) : Word := ofNat a.width (Nat.pow 2 a.width - 1 - a.value)

def neg (a : Word) : Word := ofInt a.width (-(a.value : Int))

def add (a b : Word) : Word := ofNat a.width (a.value + b.value)

def sub (a b : Word) : Word := ofInt a.width ((a.value : Int) - b.value)

def mul (a b : Word) : Word := ofNat a.width (a.value * b.value)

/-- Signed quotient, truncated toward zero. By zero it is 1 for a negative dividend and otherwise
the word of all ones. -/
def sdiv (a b : Word) : Word :=
  if b.isZero then
    if a.isNegative then one a.width else ones a.width
  else ofInt a.width (a.toInt.tdiv b.toInt)

/-- Signed remainder with the sign of the dividend, which it equals when dividing by zero. -/
def srem (a b : Word) : Word :=
  if b.isZero then a else ofInt a.width (a.toInt.tmod b.toInt)

def and (a b : Word) : Word := ofNat a.width (a.value &&& b.value)

def or (a b : Word) : Word := ofNat a.width (a.value ||| b.value)

def xor (a b : Word) : Word := ofNat a.width (a.value ^^^ b.value)

/-- Shift left by `n`; a shift by the width or more leaves nothing. -/
def shl (a : Word) (n : Nat) : Word :=
  if a.width ≤ n then zero a.width else ofNat a.width (a.value <<< n)

/-- Shift right by `n`, filling with zeros. -/
def lshr (a : Word) (n : Nat) : Word :=
  if a.width ≤ n then zero a.width else ofNat a.width (a.value >>> n)

/-- Shift right by `n`, filling with the top bit. -/
def ashr (a : Word) (n : Nat) : Word :=
  if a.width ≤ n then
    if a.isNegative then ones a.width else zero a.width
  else if a.isNegative then
    ofNat a.width ((a.value >>> n) ||| ((Nat.pow 2 n - 1) <<< (a.width - n)))
  else ofNat a.width (a.value >>> n)

/-! ### Comparisons -/

def eq (a b : Word) : Bool := a.value == b.value

def ult (a b : Word) : Bool := a.value < b.value

def slt (a b : Word) : Bool := a.toInt < b.toInt

def sle (a b : Word) : Bool := a.toInt ≤ b.toInt

def sgt (a b : Word) : Bool := !a.sle b

def sge (a b : Word) : Bool := !a.slt b

/-! ### Checked forms -/

/-- A binary operation on operands of one width. -/
def checked (op : Word → Word → α) (a b : Word) : Except WidthMismatch α :=
  if a.width = b.width then .ok (op a b) else .error ⟨a.width, b.width⟩

end Word
end Pathwise
