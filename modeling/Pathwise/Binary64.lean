import Pathwise.Word.Numeral

/-!
# Binary floating-point numbers

Finite numbers with 53 significant bits, as data formats carry them: the nearest one to a decimal
literal, its whole part, and the shortest decimal that reads back as the same number. Everything is
computed in exact integer arithmetic.
-/

namespace Pathwise

/-- The number `mantissa * 2 ^ exponent`, negated where the sign says so. -/
structure Binary64 where
  negative : Bool
  mantissa : Nat
  exponent : Int
deriving DecidableEq, Repr, Inhabited

namespace Binary64

/-- A quotient to the nearest integer; a tie goes to the even neighbour. -/
def roundDiv (n d : Nat) : Nat :=
  let q := n / d
  let r := n % d
  if 2 * r < d then q else if d < 2 * r then q + 1 else q + q % 2

/-- Two numbers whose quotient is `n * base ^ e`. -/
def scaled (n base : Nat) (e : Int) : Nat × Nat :=
  if 0 ≤ e then (n * Nat.pow base e.toNat, 1) else (n, Nat.pow base (-e).toNat)

/-- The nearest number to a fraction, none when it is too large. The exponent is the one for which
the whole part of the scaled fraction has 53 bits; the estimate from the lengths of the two numbers
is right or one too large. -/
def ofFraction? (negative : Bool) (n d : Nat) : Option Binary64 :=
  if n = 0 then some ⟨negative, 0, 0⟩
  else
    let guess : Int := (n.log2 : Int) - d.log2 - 52
    let (a, b) := scaled d 2 guess
    let e := max (if n * b / a < Nat.pow 2 52 then guess - 1 else guess) (-1074)
    let (a, b) := scaled d 2 e
    let m := roundDiv (n * b) a
    let (m, e) := if m = Nat.pow 2 53 then (Nat.pow 2 52, e + 1) else (m, e)
    if 971 < e then none else some ⟨negative, m, e⟩

/-- The nearest number to a literal with an optional fraction and exponent. -/
def ofLiteral? (literal : String) : Option Binary64 := do
  let (negative, cs) := match literal.toList with
    | '-' :: cs => (true, cs)
    | cs => (false, cs)
  let isMark (c : Char) : Bool := c = 'e' || c = 'E'
  let number := cs.takeWhile (!isMark ·)
  let e ← match cs.dropWhile (!isMark ·) with
    | _ :: e => Numeral.int? 10 (String.ofList e)
    | [] => some 0
  let whole := number.takeWhile (· ≠ '.')
  let part := (number.dropWhile (· ≠ '.')).drop 1
  let digits ← Numeral.digits? 10 0 (whole ++ part)
  let e := e - part.length
  let magnitude := e + (toString digits).length
  if digits = 0 then some ⟨negative, 0, 0⟩
  else if 400 < magnitude then none
  else if magnitude < -400 then some ⟨negative, 0, 0⟩
  else
    let (n, d) := scaled digits 10 e
    ofFraction? negative n d

def isZero (x : Binary64) : Bool := x.mantissa = 0

/-- The whole part, toward zero. -/
def truncate (x : Binary64) : Int :=
  let (n, d) := scaled x.mantissa 2 x.exponent
  if x.negative then -((n / d : Nat) : Int) else (n / d : Nat)

/-- The whole part as a 64-bit integer; what does not fit becomes the smallest one. -/
def toInt64 (x : Binary64) : Int64 :=
  let v := x.truncate
  if Int64.minValue.toInt ≤ v ∧ v ≤ Int64.maxValue.toInt then Int64.ofInt v else Int64.minValue

/-- A multiple of `10 ^ k` that reads back as the number: the one below it or the one above it,
whichever is nearer, and of two equally near ones the even one. -/
def onGrid? (x : Binary64) (k : Int) : Option Nat :=
  let (n, d) := scaled x.mantissa 2 x.exponent
  let (unit, _) := scaled 1 2 x.exponent
  let atBoundary := x.mantissa = Nat.pow 2 52 ∧ -1074 < x.exponent
  let low := 4 * n - (if atBoundary then unit else 2 * unit)
  let high := 4 * n + 2 * unit
  let (grid, scale) := scaled (4 * d) 10 k
  let holds (j : Nat) : Bool :=
    if x.mantissa % 2 = 0 then decide (low * scale ≤ j * grid ∧ j * grid ≤ high * scale)
    else decide (low * scale < j * grid ∧ j * grid < high * scale)
  let below := 4 * n * scale / grid
  let first := roundDiv (4 * n * scale) grid
  let second := if first = below then below + 1 else below
  if first ≠ 0 ∧ holds first then some first
  else if second ≠ 0 ∧ holds second then some second
  else none

/-- The coarsest grid with a hit, from `10 ^ k` downward. -/
def shortestFrom (x : Binary64) : (fuel : Nat) → (k : Int) → Nat × Int
  | 0, k => (0, k)
  | fuel + 1, k =>
    match onGrid? x k with
    | some j => (j, k)
    | none => shortestFrom x fuel (k - 1)

/-- Digits with the point in its place. -/
def plain (digits : Nat) (k : Int) : String :=
  let ds := toString digits
  if 0 ≤ k then ds ++ "".pushn '0' k.toNat
  else
    let places := (-k).toNat
    let ds := "".pushn '0' (places + 1 - ds.length) ++ ds
    (ds.take (ds.length - places)).toString ++ "." ++ (ds.drop (ds.length - places)).toString

/-- The shortest decimal that reads back, without an exponent. -/
def text (x : Binary64) : String :=
  (if x.negative then "-" else "") ++
    if x.isZero then "0"
    else
      let (digits, k) := x.shortestFrom 700 309
      plain digits k

end Binary64
end Pathwise
