/-!
# Integers in memory

Integers of any size at addresses. An operation on integers writes its result to an address, which may
be that of an operand. The bits of an integer are those of its two's complement, which goes on to the
left without end.
-/

namespace Pathwise

namespace Numbers

/-! ### Bits of integers -/

def bit : Int → Nat → Bool
  | .ofNat n, i => n.testBit i
  | .negSucc n, i => !n.testBit i

/-- The bits of the first number that the second does not have. -/
def without (m n : Nat) : Nat := Nat.bitwise (fun a b => a && !b) m n

def and : Int → Int → Int
  | .ofNat m, .ofNat n => .ofNat (m &&& n)
  | .ofNat m, .negSucc n => .ofNat (without m n)
  | .negSucc m, .ofNat n => .ofNat (without n m)
  | .negSucc m, .negSucc n => .negSucc (m ||| n)

def or : Int → Int → Int
  | .ofNat m, .ofNat n => .ofNat (m ||| n)
  | .ofNat m, .negSucc n => .negSucc (without n m)
  | .negSucc m, .ofNat n => .negSucc (without m n)
  | .negSucc m, .negSucc n => .negSucc (m &&& n)

def xor : Int → Int → Int
  | .ofNat m, .ofNat n => .ofNat (m ^^^ n)
  | .ofNat m, .negSucc n => .negSucc (m ^^^ n)
  | .negSucc m, .ofNat n => .negSucc (m ^^^ n)
  | .negSucc m, .negSucc n => .ofNat (m ^^^ n)

/-- How many bits the absolute value has. -/
def bitLength (x : Int) : Nat := if x = 0 then 0 else x.natAbs.log2 + 1

/-- Lower-case hexadecimal, with a sign where there is one. -/
def hex (x : Int) : String :=
  (if x < 0 then "-" else "") ++ String.ofList (Nat.toDigits 16 x.natAbs)

end Numbers

/-- The integers at the addresses from 0 on. -/
structure Numbers where
  integers : Array Int := #[]

namespace Numbers

def read (m : Numbers) (p : Nat) : Int := m.integers.getD p 0

def write (m : Numbers) (p : Nat) (x : Int) : Numbers := ⟨m.integers.setIfInBounds p x⟩

/-- Puts an integer at a new address. -/
def new (m : Numbers) (x : Int) : Nat × Numbers := (m.integers.size, ⟨m.integers.push x⟩)

/-- A new integer with so many bits set. -/
def makeMask (m : Numbers) (size : Nat) : Nat × Numbers :=
  let (p, m) := m.new 1
  let m := m.write p (m.read p <<< size)
  (p, m.write p (m.read p - 1))

/-- Brings the integer at `v` into the range of the mask. A negative one is first replaced by the mask
less one less than its absolute value. -/
def normalize (m : Numbers) (v mask : Nat) : Numbers :=
  let m :=
    if m.read v < 0 then
      let m := m.write v (-m.read v)
      let m := m.write v (m.read v - 1)
      m.write v (m.read mask - m.read v)
    else m
  m.write v (and (m.read v) (m.read mask))

end Numbers
end Pathwise
