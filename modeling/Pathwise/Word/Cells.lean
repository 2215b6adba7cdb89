import Pathwise.Word
import Pathwise.Word.Numbers
import Pathwise.Word.Numeral

/-!
# Cells

A cell is a vector of bits that is changed in place. It has a size, an integer in memory whose low bits
are set, the mask, and an integer in memory that is its value. An operation on one or two cells writes
its result into the first; the two may be the same cell, and a cell may have several names. What is
refused, because two sizes differ or because there is no such cell, changes nothing.
-/

namespace Pathwise

namespace Word

inductive Unary where
  | not | neg
deriving DecidableEq, Repr

def Unary.apply : Unary → Word → Word
  | .not => Word.not
  | .neg => Word.neg

inductive Binary where
  | add | sub | mul | sdiv | srem | and | or | xor
deriving DecidableEq, Repr

def Binary.apply : Binary → Word → Word → Word
  | .add => Word.add
  | .sub => Word.sub
  | .mul => Word.mul
  | .sdiv => Word.sdiv
  | .srem => Word.srem
  | .and => Word.and
  | .or => Word.or
  | .xor => Word.xor

inductive Shift where
  | shl | lshr | ashr
deriving DecidableEq, Repr

def Shift.apply : Shift → Word → Nat → Word
  | .shl => Word.shl
  | .lshr => Word.lshr
  | .ashr => Word.ashr

inductive Test where
  | eq | neq | ult | slt | sle | sgt | sge
deriving DecidableEq, Repr

def Test.apply : Test → Word → Word → Bool
  | .eq => Word.eq
  | .neq => fun a b => !a.eq b
  | .ult => Word.ult
  | .slt => Word.slt
  | .sle => Word.sle
  | .sgt => Word.sgt
  | .sge => Word.sge

end Word

/-- What can be seen of a vector of bits. -/
structure Snapshot where
  size : Nat
  value : Int
  negative : Bool
  zero : Bool
  one : Bool
  /-- All bits are set. -/
  ones : Bool
  /-- The value has at most 64 bits. -/
  fits : Bool
  unsigned : UInt64
  signed : Int64
deriving DecidableEq

/-- The vector with its size, as in `<BV8 0xff>`. -/
def Snapshot.text (s : Snapshot) : String := s!"<BV{s.size} 0x{Numbers.hex s.value}>"

def Word.snapshot (a : Word) : Snapshot where
  size := a.width
  value := a.value
  negative := a.isNegative
  zero := a.isZero
  one := a.isOne
  ones := a.isOnes
  fits := a.fitsInt64
  unsigned := a.toUInt64
  signed := a.toInt64

/-- A vector of bits in memory: its size, and the addresses of its mask and its value. -/
structure Cell where
  size : Nat
  mask : Nat
  value : Nat
deriving DecidableEq, Repr

namespace Cell

/-- A new cell for an integer. -/
def make (size : Nat) (x : Int) (m : Numbers) : Cell × Numbers :=
  let (mask, m) := m.makeMask size
  let (value, m) := m.new x
  (⟨size, mask, value⟩, m.normalize value mask)

def copy (c : Cell) (m : Numbers) : Cell × Numbers :=
  let (mask, m) := m.new (m.read c.mask)
  let (value, m) := m.new (m.read c.value)
  (⟨c.size, mask, value⟩, m)

/-! ### Views -/

/-- The top bit is set. -/
def isNegative (c : Cell) (m : Numbers) : Bool := Numbers.bit (m.read c.value) (c.size - 1)

def isZero (c : Cell) (m : Numbers) : Bool := m.read c.value == 0

def isOne (c : Cell) (m : Numbers) : Bool := m.read c.value == 1

def isOnes (c : Cell) (m : Numbers) : Bool := m.read c.value == m.read c.mask

def fits (c : Cell) (m : Numbers) : Bool := Numbers.bitLength (m.read c.value) ≤ 64

/-- The low 64 bits of the value. -/
def unsigned (c : Cell) (m : Numbers) : UInt64 := UInt64.ofNat (m.read c.value).natAbs

/-- The value as a signed integer: less the mask and less one, if the top bit is set. -/
def toInt (c : Cell) (m : Numbers) : Int :=
  if c.isNegative m then m.read c.value - m.read c.mask - 1 else m.read c.value

/-! ### Operations -/

def not (c : Cell) (m : Numbers) : Numbers :=
  let m := m.write c.value (Int.not (m.read c.value))
  m.write c.value (Numbers.and (m.read c.value) (m.read c.mask))

def neg (c : Cell) (m : Numbers) : Numbers :=
  let m := m.write c.value (-m.read c.value)
  m.normalize c.value c.mask

/-- The signed value in 64 bits. A negative one is told by negating a copy. -/
def signed (c : Cell) (m : Numbers) : Int64 :=
  if c.isNegative m then
    let (abs, m) := c.copy m
    let low := (abs.unsigned (abs.neg m)).toInt64
    (-low)
  else Int64.ofInt (m.read c.value)

def snapshot (c : Cell) (m : Numbers) : Snapshot where
  size := c.size
  value := m.read c.value
  negative := c.isNegative m
  zero := c.isZero m
  one := c.isOne m
  ones := c.isOnes m
  fits := c.fits m
  unsigned := c.unsigned m
  signed := c.signed m

/-- Writes the result of an operation on the two values, and cuts it down to the mask. -/
def masked (op : Int → Int → Int) (c o : Cell) (m : Numbers) : Numbers :=
  let m := m.write c.value (op (m.read c.value) (m.read o.value))
  m.write c.value (Numbers.and (m.read c.value) (m.read c.mask))

/-- Writes the result of an operation on the bits of the two values as it is. -/
def bitwise (op : Int → Int → Int) (c o : Cell) (m : Numbers) : Numbers :=
  m.write c.value (op (m.read c.value) (m.read o.value))

def sub (c o : Cell) (m : Numbers) : Numbers :=
  let m := m.write c.value (m.read c.value - m.read o.value)
  m.normalize c.value c.mask

/-- Gives the cell a new value, the result of an operation on the two signed ones. -/
def replace (op : Int → Int → Int) (c o : Cell) (m : Numbers) : Cell × Numbers :=
  let (value, m) := m.new (op (c.toInt m) (o.toInt m))
  ({ c with value }, m.normalize value c.mask)

/-- Signed quotient, truncated toward zero. By zero it is 1 for a negative dividend and otherwise all
ones. -/
def sdiv (c o : Cell) (m : Numbers) : Cell × Numbers :=
  if o.isZero m then
    if c.isNegative m then (c, m.write c.value 1) else (c, m.write c.value (m.read c.mask))
  else c.replace Int.tdiv o m

/-- Signed remainder with the sign of the dividend, which stays as it is when dividing by zero. -/
def srem (c o : Cell) (m : Numbers) : Cell × Numbers :=
  if o.isZero m then (c, m) else c.replace Int.tmod o m

def shl (c : Cell) (n : Nat) (m : Numbers) : Numbers :=
  if c.size ≤ n then m.write c.value 0
  else
    let m := m.write c.value (m.read c.value <<< n)
    m.write c.value (Numbers.and (m.read c.value) (m.read c.mask))

def lshr (c : Cell) (n : Nat) (m : Numbers) : Numbers :=
  if c.size ≤ n then m.write c.value 0 else m.write c.value (m.read c.value >>> n)

/-- Shift right by `n`. What the top bit brings in is a mask of `n` bits, moved up. -/
def ashr (c : Cell) (n : Nat) (m : Numbers) : Numbers :=
  let negative := c.isNegative m
  if c.size ≤ n then m.write c.value (if negative then m.read c.mask else 0)
  else if n = 0 then m
  else
    let m := m.write c.value (m.read c.value >>> n)
    if negative then
      let (fill, m) := m.makeMask n
      let m := m.write fill (m.read fill <<< (c.size - n))
      m.write c.value (Numbers.or (m.read c.value) (m.read fill))
    else m

def unary : Word.Unary → Cell → Numbers → Numbers
  | .not => not
  | .neg => neg

def binary (op : Word.Binary) (c o : Cell) (m : Numbers) : Cell × Numbers :=
  match op with
  | .add => (c, c.masked (· + ·) o m)
  | .sub => (c, c.sub o m)
  | .mul => (c, c.masked (· * ·) o m)
  | .sdiv => c.sdiv o m
  | .srem => c.srem o m
  | .and => (c, c.bitwise Numbers.and o m)
  | .or => (c, c.bitwise Numbers.or o m)
  | .xor => (c, c.bitwise Numbers.xor o m)

def shift : Word.Shift → Cell → Nat → Numbers → Numbers
  | .shl => shl
  | .lshr => lshr
  | .ashr => ashr

def test (op : Word.Test) (c o : Cell) (m : Numbers) : Bool :=
  match op with
  | .eq => m.read c.value == m.read o.value
  | .neq => !(m.read c.value == m.read o.value)
  | .ult => m.read c.value < m.read o.value
  | .slt => c.toInt m < o.toInt m
  | .sle => c.toInt m ≤ o.toInt m
  | .sgt => !decide (c.toInt m ≤ o.toInt m)
  | .sge => !decide (c.toInt m < o.toInt m)

end Cell

/-- The integers in memory, the cells that were made, and which of them a name stands for. -/
structure Cells where
  numbers : Numbers := {}
  cells : Array Cell := #[]
  names : List (String × Nat) := []

namespace Cells

/-- What can be done with cells. The first name is that of the cell that is worked on. -/
inductive Action where
  | make (r : String) (width : Nat) (v : Int)
  | parse (r : String) (base width : Nat) (text : String)
  | copy (r source : String)
  /-- Another name for a cell. -/
  | share (r source : String)
  | read (r : String)
  | signed (r : String)
  | unary (op : Word.Unary) (r : String)
  | binary (op : Word.Binary) (r other : String)
  | shift (op : Word.Shift) (r : String) (n : Nat)
  | test (op : Word.Test) (r other : String)

inductive Reply where
  /-- What can be seen of the cell now. -/
  | state (s : Snapshot)
  | truth (v : Bool)
  /-- The signed value of a cell, as far as 64 bits can tell it. -/
  | signed (v : Int64)
  /-- No cell of no bits, and none for a text that is no numeral. -/
  | refused
  | mismatch (e : WidthMismatch)
  | missing
deriving DecidableEq

/-- Makes a cell under a name. -/
def make (s : Cells) (r : String) (width : Nat) (v : Int) : Reply × Cells :=
  if width = 0 then (.refused, s)
  else
    let (c, numbers) := Cell.make width v s.numbers
    (.state (c.snapshot numbers), ⟨numbers, s.cells.push c, (r, s.cells.size) :: s.names⟩)

/-- The cell that a name stands for, and where it is kept. -/
def get? (s : Cells) (r : String) : Option (Nat × Cell) := do
  let i ← s.names.lookup r
  let c ← s.cells[i]?
  return (i, c)

def withCell (s : Cells) (r : String) (act : Nat → Cell → Reply × Cells) : Reply × Cells :=
  match s.get? r with
  | some (i, c) => act i c
  | none => (.missing, s)

/-- Works on two cells, which have to have one size. -/
def withCells (s : Cells) (r other : String) (act : Nat → Cell → Cell → Reply × Cells) : Reply × Cells :=
  s.withCell r fun i c => s.withCell other fun _ o =>
    if c.size = o.size then act i c o else (.mismatch ⟨c.size, o.size⟩, s)

/-- What was done to a cell is taken over, and the cell is shown. -/
def update (s : Cells) (i : Nat) (result : Cell × Numbers) : Reply × Cells :=
  (.state (result.1.snapshot result.2),
    { s with numbers := result.2, cells := s.cells.setIfInBounds i result.1 })

def step (s : Cells) : Action → Reply × Cells
  | .make r width v => s.make r width v
  | .parse r base width text =>
    match Numeral.int? base text with
    | some v => s.make r width v
    | none => (.refused, s)
  | .copy r source => s.withCell source fun _ c =>
    let (c, numbers) := c.copy s.numbers
    (.state (c.snapshot numbers), ⟨numbers, s.cells.push c, (r, s.cells.size) :: s.names⟩)
  | .share r source => s.withCell source fun i c =>
    (.state (c.snapshot s.numbers), { s with names := (r, i) :: s.names })
  | .read r => s.withCell r fun _ c => (.state (c.snapshot s.numbers), s)
  | .signed r => s.withCell r fun _ c => (.signed (c.signed s.numbers), s)
  | .unary op r => s.withCell r fun i c => s.update i (c, c.unary op s.numbers)
  | .binary op r other => s.withCells r other fun i c o => s.update i (c.binary op o s.numbers)
  | .shift op r n => s.withCell r fun i c => s.update i (c, c.shift op n s.numbers)
  | .test op r other => s.withCells r other fun _ c o => (.truth (c.test op o s.numbers), s)

/-- The replies to one action after the other. -/
def run (s : Cells) : List Action → List Reply × Cells
  | [] => ([], s)
  | act :: acts =>
    let (reply, s) := s.step act
    let (replies, s) := s.run acts
    (reply :: replies, s)

end Cells
end Pathwise
