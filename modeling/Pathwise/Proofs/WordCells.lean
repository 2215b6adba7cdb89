import Mathlib.Data.List.Forall2
import Pathwise.Proofs.CellNumbers

/-! Cells hold bit vectors. Beside the cells runs a machine over bit vectors of any positive width, whose operations are
those of the solvers' logic: arithmetic modulo a power of two, quotients that are truncated, values for division by
zero, shifts by any amount, and comparisons in the unsigned and the signed order. Each step of the cells does what the
machine does, whether two operands are different cells or one, so every sequence of steps has the replies and leaves
the vectors of the machine. What carries this is that no two cells have their values at one address, and none has its
value where another has its mask. -/

namespace Pathwise

variable {w : Nat} {a b : Word} {x y : BitVec w}

/-! ### Words spell vectors -/

namespace Word

/-- The word has the width and the number of the vector. -/
structure Spells (a : Word) (x : BitVec w) : Prop where
  width : a.width = w
  value : a.value = x.toNat

theorem Spells.bits (h : a.Spells x) : a.bits w = x := by
  apply BitVec.eq_of_toNat_eq
  rw [toNat_bits h.width, h.value]

theorem spells_of_bits (hwidth : a.width = w) (h : a.bits w = x) : a.Spells x := by
  refine ⟨hwidth, ?_⟩
  rw [← h, toNat_bits hwidth]

theorem spells_ofInt (w : Nat) (v : Int) : (ofInt w v).Spells (BitVec.ofInt w v) :=
  spells_of_bits (width_ofInt w v) (bits_ofInt w v)

/-- The operations on vectors. -/
def Unary.bits : Unary → BitVec w → BitVec w
  | .not, x => ~~~x
  | .neg, x => -x

def Binary.bits : Binary → BitVec w → BitVec w → BitVec w
  | .add, x, y => x + y
  | .sub, x, y => x - y
  | .mul, x, y => x * y
  | .sdiv, x, y => x.smtSDiv y
  | .srem, x, y => x.srem y
  | .and, x, y => x &&& y
  | .or, x, y => x ||| y
  | .xor, x, y => x ^^^ y

def Shift.bits : Shift → BitVec w → Nat → BitVec w
  | .shl, x, n => x <<< n
  | .lshr, x, n => x >>> n
  | .ashr, x, n => x.sshiftRight n

/-- The tests as orders of numbers. -/
def Test.Holds : Test → BitVec w → BitVec w → Prop
  | .eq, x, y => x = y
  | .neq, x, y => x ≠ y
  | .ult, x, y => x.toNat < y.toNat
  | .slt, x, y => x.toInt < y.toInt
  | .sle, x, y => x.toInt ≤ y.toInt
  | .sgt, x, y => y.toInt < x.toInt
  | .sge, x, y => y.toInt ≤ x.toInt

instance (op : Test) (x y : BitVec w) : Decidable (op.Holds x y) :=
  match op with
  | .eq => inferInstanceAs (Decidable (x = y))
  | .neq => inferInstanceAs (Decidable (x ≠ y))
  | .ult => inferInstanceAs (Decidable (x.toNat < y.toNat))
  | .slt => inferInstanceAs (Decidable (x.toInt < y.toInt))
  | .sle => inferInstanceAs (Decidable (x.toInt ≤ y.toInt))
  | .sgt => inferInstanceAs (Decidable (y.toInt < x.toInt))
  | .sge => inferInstanceAs (Decidable (y.toInt ≤ x.toInt))

theorem Unary.spells (op : Unary) (ha : a.Spells x) : (op.apply a).Spells (op.bits x) := by
  have hx := ha.bits
  cases op with
  | not => exact spells_of_bits ha.width (by rw [apply, bits_not ha.width, hx]; rfl)
  | neg => exact spells_of_bits ha.width (by rw [apply, bits_neg ha.width, hx]; rfl)

theorem Binary.spells (op : Binary) (ha : a.Spells x) (hb : b.Spells y) :
    (op.apply a b).Spells (op.bits x y) := by
  obtain ⟨rfl, rfl⟩ : a.bits w = x ∧ b.bits w = y := ⟨ha.bits, hb.bits⟩
  cases op with
  | add => exact spells_of_bits ha.width (bits_add ha.width)
  | sub => exact spells_of_bits ha.width (bits_sub ha.width)
  | mul => exact spells_of_bits ha.width (bits_mul ha.width)
  | sdiv => exact spells_of_bits ((width_sdiv a b).trans ha.width) (bits_sdiv ha.width hb.width)
  | srem => exact spells_of_bits ((width_srem a b).trans ha.width) (bits_srem ha.width hb.width)
  | and => exact spells_of_bits ha.width (bits_and ha.width)
  | or => exact spells_of_bits ha.width (bits_or ha.width)
  | xor => exact spells_of_bits ha.width (bits_xor ha.width)

theorem Shift.spells (op : Shift) (ha : a.Spells x) (n : Nat) : (op.apply a n).Spells (op.bits x n) := by
  obtain rfl : a.bits w = x := ha.bits
  cases op with
  | shl => exact spells_of_bits ((width_shl a n).trans ha.width) (bits_shl ha.width n)
  | lshr => exact spells_of_bits ((width_lshr a n).trans ha.width) (bits_lshr ha.width n)
  | ashr => exact spells_of_bits ((width_ashr a n).trans ha.width) (bits_ashr ha.width n)

theorem Test.apply_eq (op : Test) (ha : a.Spells x) (hb : b.Spells y) : op.apply a b = decide (op.Holds x y) := by
  obtain ⟨rfl, rfl⟩ : a.bits w = x ∧ b.bits w = y := ⟨ha.bits, hb.bits⟩
  have hsle : a.sle b = decide ((a.bits w).toInt ≤ (b.bits w).toInt) := sle_eq_bits ha.width hb.width
  have hslt : a.slt b = decide ((a.bits w).toInt < (b.bits w).toInt) := slt_eq_bits ha.width hb.width
  cases op with
  | eq => exact eq_iff_bits ha.width hb.width
  | neq => exact (congrArg Bool.not (eq_iff_bits ha.width hb.width)).trans (decide_not).symm
  | ult => exact ult_eq_bits ha.width hb.width
  | slt => exact hslt
  | sle => exact hsle
  | sgt =>
      show (!a.sle b) = decide ((b.bits w).toInt < (a.bits w).toInt)
      rw [hsle, ← decide_not]
      simp only [not_le]
  | sge =>
      show (!a.slt b) = decide ((b.bits w).toInt ≤ (a.bits w).toInt)
      rw [hslt, ← decide_not]
      simp only [not_lt]

/-- Up to 64 bits the signed value is exact. -/
theorem Spells.toInt_toInt64 (ha : a.Spells x) (hw : w ≤ 64) : a.toInt64.toInt = x.toInt := by
  obtain rfl : a.bits w = x := ha.bits
  have hpow : (2 : Int) ^ (w - 1) ≤ 2 ^ 63 := by
    have hle : 2 ^ (w - 1) ≤ 2 ^ 63 := Nat.pow_le_pow_right Nat.zero_lt_two (by omega)
    exact_mod_cast hle
  have hlow := (a.bits w).le_toInt
  have hhigh := BitVec.toInt_lt (x := a.bits w)
  rw [toInt_bits ha.width] at hlow hhigh ⊢
  exact Int64.toInt_ofInt_of_le (by omega) (by omega)

/-- What can be seen of a word is what the vector has. -/
structure Shows (s : Snapshot) (x : BitVec w) : Prop where
  size : s.size = w
  value : s.value = x.toNat
  negative : s.negative = x.msb
  zero : s.zero = decide (x = 0#w)
  one : s.one = decide (x = 1#w)
  ones : s.ones = decide (x = BitVec.allOnes w)
  fits : s.fits = decide (x.toNat < 2 ^ 64)
  unsigned : s.unsigned.toNat = x.toNat % 2 ^ 64
  signed : w ≤ 64 → s.signed.toInt = x.toInt

theorem Spells.shows (ha : a.Spells x) (hw : 0 < w) : Shows a.snapshot x where
  size := ha.width
  value := congrArg Nat.cast ha.value
  negative := (isNegative_eq_msb ha.width).trans (by rw [ha.bits])
  zero := by
    rw [Bool.eq_iff_iff, decide_eq_true_iff, ← ha.bits]
    exact isZero_iff ha.width
  one := by
    have hone : (1#w).toNat = 1 := by
      rw [BitVec.toNat_ofNat, Nat.mod_eq_of_lt (Nat.one_lt_two_pow hw.ne')]
    rw [Bool.eq_iff_iff, decide_eq_true_iff, ← BitVec.toNat_inj, hone, ← ha.value]
    exact beq_iff_eq
  ones := by
    rw [Bool.eq_iff_iff, decide_eq_true_iff, ← ha.bits]
    exact isOnes_iff ha.width
  fits := by
    rw [← ha.value]
    rfl
  unsigned := by
    rw [← ha.value]
    exact UInt64.toNat_ofNat'
  signed := ha.toInt_toInt64

end Word

/-! ### The machine over vectors -/

/-- Vectors of any widths, and which of them a name stands for. -/
structure Vectors where
  vectors : Array ((w : Nat) × BitVec w) := #[]
  names : List (String × Nat) := []

namespace Vectors

open Cells (Action)

/-- What the machine answers. -/
inductive Outcome where
  | vector {w : Nat} (x : BitVec w)
  | truth (v : Bool)
  | signed {w : Nat} (x : BitVec w)
  | refused
  | mismatch (e : WidthMismatch)
  | missing

def add (v : Vectors) (r : String) (x : BitVec w) : Outcome × Vectors :=
  (.vector x, ⟨v.vectors.push ⟨w, x⟩, (r, v.vectors.size) :: v.names⟩)

/-- The vector of an integer, if there is to be any bit. -/
def make (v : Vectors) (r : String) (w : Nat) (n : Int) : Outcome × Vectors :=
  if w = 0 then (.refused, v) else v.add r (BitVec.ofInt w n)

def get? (v : Vectors) (r : String) : Option (Nat × (w : Nat) × BitVec w) := do
  let i ← v.names.lookup r
  let x ← v.vectors[i]?
  return (i, x)

def withVector (v : Vectors) (r : String) (act : {w : Nat} → Nat → BitVec w → Outcome × Vectors) :
    Outcome × Vectors :=
  match v.get? r with
  | some (i, ⟨_, x⟩) => act i x
  | none => (.missing, v)

def withVectors (v : Vectors) (r other : String)
    (act : {w : Nat} → Nat → BitVec w → BitVec w → Outcome × Vectors) : Outcome × Vectors :=
  v.withVector r fun {w} i x => v.withVector other fun {w'} _ y =>
    if h : w' = w then act i x (y.cast h) else (.mismatch ⟨w, w'⟩, v)

def update (v : Vectors) (i : Nat) (x : BitVec w) : Outcome × Vectors :=
  (.vector x, { v with vectors := v.vectors.setIfInBounds i ⟨w, x⟩ })

def step (v : Vectors) : Action → Outcome × Vectors
  | .make r w n => v.make r w n
  | .parse r base w text =>
    match Numeral.int? base text with
    | some n => v.make r w n
    | none => (.refused, v)
  | .copy r source => v.withVector source fun _ x => v.add r x
  | .share r source => v.withVector source fun i x => (.vector x, { v with names := (r, i) :: v.names })
  | .read r => v.withVector r fun _ x => (.vector x, v)
  | .signed r => v.withVector r fun _ x => (.signed x, v)
  | .unary op r => v.withVector r fun i x => v.update i (op.bits x)
  | .binary op r other => v.withVectors r other fun i x y => v.update i (op.bits x y)
  | .shift op r n => v.withVector r fun i x => v.update i (op.bits x n)
  | .test op r other => v.withVectors r other fun _ x y => (.truth (decide (op.Holds x y)), v)

def run (v : Vectors) : List Action → List Outcome × Vectors
  | [] => ([], v)
  | act :: acts => ((v.step act).1 :: ((v.step act).2.run acts).1, ((v.step act).2.run acts).2)

end Vectors

/-! ### Cells do what the machine does -/

/-- The cell holds the vector. -/
def Cell.Holds (m : Numbers) (c : Cell) (x : BitVec w) : Prop := ∃ a : Word, c.Stands m a ∧ a.Spells x

theorem Cell.Holds.shows {m : Numbers} {c : Cell} (h : c.Holds m x) : Word.Shows (c.snapshot m) x := by
  obtain ⟨a, hstands, hspells⟩ := h
  rw [hstands.snapshot]
  exact hspells.shows (hspells.width ▸ hstands.pos)

namespace Cells

open Cell Word

variable {s : Cells} {v : Vectors} {m : Numbers} {c d : Cell} {i j : Nat} {r other : String}

/-- The reply is what the machine answers. Nothing is said of the signed value of more than 64 bits. -/
def Reply.Reports : Reply → Vectors.Outcome → Prop
  | .state s, .vector x => Shows s x
  | .truth v, .truth v' => v = v'
  | .signed v, .signed (w := w) x => w ≤ 64 → v.toInt = x.toInt
  | .refused, .refused => True
  | .mismatch e, .mismatch e' => e = e'
  | .missing, .missing => True
  | _, _ => False

/-- The cells hold the vectors. No integer that is the value of one cell belongs to another. -/
structure Held (m : Numbers) (cells : Array Cell) (vectors : Array ((w : Nat) × BitVec w)) : Prop where
  size : cells.size = vectors.size
  holds : ∀ i : Nat, Option.Rel (fun (c : Cell) (x : (w : Nat) × BitVec w) => c.Holds m x.2) cells[i]? vectors[i]?
  apart : ∀ {i j : Nat} {c d : Cell}, cells[i]? = some c → cells[j]? = some d → i ≠ j →
    c.value ≠ d.value ∧ c.value ≠ d.mask

/-- The same names stand for the same places. -/
structure Hold (s : Cells) (v : Vectors) : Prop extends Held s.numbers s.cells v.vectors where
  names : s.names = v.names

/-- The reply and the cells after a step are those of the machine. -/
structure Agree (result : Reply × Cells) (result' : Vectors.Outcome × Vectors) : Prop where
  reply : result.1.Reports result'.1
  hold : result.2.Hold result'.2

theorem hold_empty : ({} : Cells).Hold {} where
  names := rfl
  size := rfl
  holds _ := .none
  apart hc := by cases hc

section

variable {m' : Numbers} {cells cells' : Array Cell} {vectors vectors' : Array ((w : Nat) × BitVec w)}

theorem Held.stands (h : Held m cells vectors) (hc : cells[i]? = some c) : ∃ a, c.Stands m a := by
  have hi := h.holds i
  rw [hc] at hi
  generalize vectors[i]? = vector at hi
  cases hi with
  | some hholds =>
      obtain ⟨a, ha, -⟩ := hholds
      exact ⟨a, ha⟩

/-- A cell is put in a place. The others keep their words, and their addresses are none of its own. -/
theorem Held.put (h : Held m cells vectors) (hsize : cells'.size = vectors'.size)
    (hcells : ∀ j : Nat, cells'[j]? = if j = i then some c else cells[j]?)
    (hvectors : ∀ j : Nat, vectors'[j]? = if j = i then some ⟨w, x⟩ else vectors[j]?) (hx : c.Holds m' x)
    (hother : ∀ {j : Nat} {d : Cell} {b : Word}, j ≠ i → cells[j]? = some d → d.Stands m b →
      d.Stands m' b ∧ (c.value ≠ d.value ∧ c.value ≠ d.mask) ∧ d.value ≠ c.mask) : Held m' cells' vectors' where
  size := hsize
  holds j := by
    rw [hcells, hvectors]
    by_cases hj : j = i
    · rw [if_pos hj, if_pos hj]
      exact .some hx
    · rw [if_neg hj, if_neg hj]
      have hrel := h.holds j
      generalize hd : cells[j]? = cell at hrel
      generalize vectors[j]? = vector at hrel
      cases hrel with
      | none => exact .none
      | some hholds =>
          obtain ⟨b, hb, hspells⟩ := hholds
          exact .some ⟨b, (hother hj hd hb).1, hspells⟩
  apart {j k d e} hd he hjk := by
    rw [hcells] at hd he
    by_cases hj : j = i
    · have hk : k ≠ i := fun hk => hjk (hj.trans hk.symm)
      rw [if_pos hj, Option.some_inj] at hd
      rw [if_neg hk] at he
      obtain ⟨b, hb⟩ := h.stands he
      exact hd ▸ (hother hk he hb).2.1
    · rw [if_neg hj] at hd
      by_cases hk : k = i
      · rw [if_pos hk, Option.some_inj] at he
        obtain ⟨b, hb⟩ := h.stands hd
        obtain ⟨-, ⟨hvalue, -⟩, hmask⟩ := hother hj hd hb
        exact he ▸ ⟨hvalue.symm, hmask⟩
      · rw [if_neg hk] at he
        exact h.apart hd he hjk

end

/-- What is done to a cell in place shows in no other. -/
theorem Hold.update (h : s.Hold v) (hc : s.cells[i]? = some c) {result : Cell × Numbers}
    (hbecomes : Becomes s.numbers c result a) (ha : a.Spells x) : Agree (s.update i result) (v.update i x) := by
  have hi : i < s.cells.size := (Array.getElem?_eq_some_iff.1 hc).1
  have hholds : result.1.Holds result.2 x := ⟨a, hbecomes.stands, ha⟩
  refine ⟨hholds.shows, h.toHeld.put (i := i) (c := result.1) ?_ (fun j => ?_) (fun j => ?_) hholds ?_, h.names⟩
  · simpa [Cells.update, Vectors.update] using h.size
  · simp only [Cells.update, Array.getElem?_setIfInBounds, eq_comm (a := i), if_pos hi]
  · simp only [Vectors.update, Array.getElem?_setIfInBounds, eq_comm (a := i), if_pos (h.size ▸ hi)]
  · intro j d b hj hd hb
    have hdc := h.apart hd hc hj
    have hcd := h.apart hc hd (Ne.symm hj)
    have hstands := hb.frame hbecomes.grows (hbecomes.frame _ hb.value_lt hdc.1)
      (hbecomes.frame _ hb.mask_lt (Ne.symm hcd.2))
    refine ⟨hstands, ?_, hbecomes.mask ▸ hdc.2⟩
    rcases hbecomes.place with hplace | hplace
    · rw [hplace]
      exact hcd
    · exact ⟨(hb.value_lt.trans_le hplace).ne', (hb.mask_lt.trans_le hplace).ne'⟩

theorem Hold.add (h : s.Hold v) (r : String) {result : Cell × Numbers} (happears : Appears s.numbers result a)
    (ha : a.Spells x) :
    Agree (.state (result.1.snapshot result.2), ⟨result.2, s.cells.push result.1, (r, s.cells.size) :: s.names⟩)
      (v.add r x) := by
  have hholds : result.1.Holds result.2 x := ⟨a, happears.stands, ha⟩
  have hheld : Held result.2 (s.cells.push result.1) (v.vectors.push ⟨w, x⟩) := by
    refine h.toHeld.put (i := s.cells.size) (c := result.1) ?_ (fun j => ?_) (fun j => ?_) hholds ?_
    · rw [Array.size_push, Array.size_push, h.size]
    · rw [Array.getElem?_push]
    · rw [Array.getElem?_push, h.size]
    · intro j d b _ _ hb
      have hstands := hb.frame happears.grows (happears.frame _ hb.value_lt) (happears.frame _ hb.mask_lt)
      exact ⟨hstands, ⟨(hb.value_lt.trans_le happears.value).ne', (hb.mask_lt.trans_le happears.value).ne'⟩,
        (hb.value_lt.trans_le happears.mask).ne⟩
  refine ⟨hholds.shows, hheld, ?_⟩
  change (r, s.cells.size) :: s.names = (r, v.vectors.size) :: v.names
  rw [h.size, h.names]

theorem Hold.withCell (h : s.Hold v) (r : String) {act : Nat → Cell → Reply × Cells}
    {act' : {w : Nat} → Nat → BitVec w → Vectors.Outcome × Vectors}
    (hact : ∀ {w i : Nat} {c : Cell} {a : Word} {x : BitVec w}, s.cells[i]? = some c → c.Stands s.numbers a →
      a.Spells x → Agree (act i c) (act' i x)) :
    Agree (s.withCell r act) (v.withVector r act') := by
  unfold Cells.withCell Vectors.withVector Cells.get? Vectors.get?
  rw [h.names]
  cases v.names.lookup r with
  | none => exact ⟨trivial, h⟩
  | some i =>
      have hrel := h.holds i
      dsimp only [Option.bind_eq_bind, Option.bind_some]
      generalize hc : s.cells[i]? = cell at hrel
      generalize v.vectors[i]? = vector at hrel
      cases hrel with
      | none => exact ⟨trivial, h⟩
      | some hholds =>
          obtain ⟨a, hstands, hspells⟩ := hholds
          exact hact hc hstands hspells

theorem Hold.withCells (h : s.Hold v) (r other : String) {act : Nat → Cell → Cell → Reply × Cells}
    {act' : {w : Nat} → Nat → BitVec w → BitVec w → Vectors.Outcome × Vectors}
    (hact : ∀ {w i : Nat} {c d : Cell} {a b : Word} {x y : BitVec w}, s.cells[i]? = some c →
      c.Stands s.numbers a → d.Stands s.numbers b → a.Spells x → b.Spells y → Agree (act i c d) (act' i x y)) :
    Agree (s.withCells r other act) (v.withVectors r other act') := by
  refine h.withCell r fun {w i c a x} hc ha hx => h.withCell other fun {w' j d b y} hd hb hy => ?_
  -- The cells compare the sizes they carry, the machine those of the types.
  by_cases hwidth : w' = w
  · subst hwidth
    rw [if_pos (by rw [ha.size, hb.size, hx.width, hy.width]), dif_pos rfl]
    exact hact hc ha hb hx hy
  · have hne : c.size ≠ d.size := by
      rw [ha.size, hb.size, hx.width, hy.width]
      exact Ne.symm hwidth
    rw [if_neg hne, dif_neg hwidth, ha.size, hb.size, hx.width, hy.width]
    exact ⟨rfl, h⟩

theorem Hold.make (h : s.Hold v) (r : String) (w : Nat) (n : Int) : Agree (s.make r w n) (v.make r w n) := by
  unfold Cells.make Vectors.make
  by_cases hw : w = 0
  · rw [if_pos hw, if_pos hw]
    exact ⟨trivial, h⟩
  · rw [if_neg hw, if_neg hw]
    exact h.add r (make_appears s.numbers (Nat.pos_of_ne_zero hw) n) (spells_ofInt w n)

/-- One step of the cells is one step of the machine. -/
theorem Hold.step (h : s.Hold v) (act : Action) : Agree (s.step act) (v.step act) := by
  cases act with
  | make r w n => exact h.make r w n
  | parse r base w text =>
      unfold Cells.step Vectors.step
      dsimp only
      cases Numeral.int? base text with
      | some n => exact h.make r w n
      | none => exact ⟨trivial, h⟩
  | copy r source => exact h.withCell source fun _ ha hx => h.add r (copy_appears ha) hx
  | share r source =>
      refine h.withCell source fun _ ha hx => ⟨Holds.shows ⟨_, ha, hx⟩, h.toHeld, ?_⟩
      rw [h.names]
  | read r => exact h.withCell r fun _ ha hx => ⟨Holds.shows ⟨_, ha, hx⟩, h⟩
  | signed r => exact h.withCell r fun _ ha hx => ⟨ha.signed ▸ hx.toInt_toInt64, h⟩
  | unary op r => exact h.withCell r fun hc ha hx => h.update hc (unary_becomes ha op) (op.spells hx)
  | binary op r other =>
      exact h.withCells r other fun hc ha hb hx hy =>
        h.update hc (binary_becomes ha hb (hx.width.trans hy.width.symm) op) (op.spells hx hy)
  | shift op r n => exact h.withCell r fun hc ha hx => h.update hc (shift_becomes ha op n) (op.spells hx n)
  | test op r other =>
      change Agree (s.withCells r other fun _ c d => (.truth (c.test op d s.numbers), s))
        (v.withVectors r other fun _ x y => (.truth (decide (op.Holds x y)), v))
      exact h.withCells r other fun _ ha hb hx hy => ⟨(test_eq ha hb op).trans (op.apply_eq hx hy), h⟩

/-- A run of the cells is a run of the machine. -/
theorem Hold.run (h : s.Hold v) (acts : List Action) :
    List.Forall₂ Reply.Reports (s.run acts).1 (v.run acts).1 ∧ (s.run acts).2.Hold (v.run acts).2 := by
  induction acts generalizing s v with
  | nil => exact ⟨.nil, h⟩
  | cons act acts ih =>
      have hstep := h.step act
      obtain ⟨hreplies, hcells⟩ := ih hstep.hold
      exact ⟨.cons hstep.reply hreplies, hcells⟩

/-- Cells of two sizes are refused, and nothing changes. -/
theorem withCells_of_ne (hc : s.get? r = some (i, c)) (hd : s.get? other = some (j, d)) (h : c.size ≠ d.size)
    (act : Nat → Cell → Cell → Reply × Cells) : s.withCells r other act = (.mismatch ⟨c.size, d.size⟩, s) := by
  unfold withCells withCell
  rw [hc, hd]
  exact if_neg h

end Cells

/-- Whatever is done with cells, in any order, under any names, and with one cell for both operands or two, the replies
are those of the machine over bit vectors, and every cell holds the vector that the machine has there: its value in
memory is a number from zero to below the power of two of its size, which is not zero. Operands of two sizes are
refused, and nothing changes. -/
theorem cells_hold_bit_vectors (acts : List Cells.Action) :
    let s := (Cells.run {} acts).2
    let v := (Vectors.run {} acts).2
    List.Forall₂ Cells.Reply.Reports (Cells.run {} acts).1 (Vectors.run {} acts).1 ∧ s.names = v.names ∧
    (∀ i : Nat, Option.Rel
      (fun (c : Cell) (x : (w : Nat) × BitVec w) => c.size = x.1 ∧ s.numbers.read c.value = x.2.toNat ∧ 0 < c.size ∧
        0 ≤ s.numbers.read c.value ∧ s.numbers.read c.value < 2 ^ c.size) s.cells[i]? v.vectors[i]?) ∧
    ∀ (r other : String) (i j : Nat) (c d : Cell), s.get? r = some (i, c) → s.get? other = some (j, d) →
      c.size ≠ d.size →
      (∀ op, s.step (.binary op r other) = (.mismatch ⟨c.size, d.size⟩, s)) ∧
      ∀ op, s.step (.test op r other) = (.mismatch ⟨c.size, d.size⟩, s) := by
  intro s v
  obtain ⟨hreplies, hhold⟩ := Cells.hold_empty.run acts
  refine ⟨hreplies, hhold.names, fun i => ?_, fun r other i j c d hc hd hne => ⟨fun op => ?_, fun op => ?_⟩⟩
  · have hi : Option.Rel _ s.cells[i]? v.vectors[i]? := hhold.holds i
    generalize s.cells[i]? = cell at hi
    generalize v.vectors[i]? = vector at hi
    cases hi with
    | none => exact .none
    | @some c x hholds =>
        obtain ⟨a, ha, hx⟩ := hholds
        have hvalue : s.numbers.read c.value = a.value := ha.value
        have hlt : (a.value : Int) < 2 ^ a.width := by exact_mod_cast a.lt
        refine .some ⟨ha.size.trans hx.width, hvalue.trans (congrArg Nat.cast hx.value), ha.size ▸ ha.pos, ?_, ?_⟩
        · rw [hvalue]
          exact Int.natCast_nonneg _
        · rw [hvalue, ha.size]
          exact hlt
  · exact Cells.withCells_of_ne hc hd hne _
  · exact Cells.withCells_of_ne hc hd hne _

/-- The least number divided by minus one under another name, a cell less itself, a remainder by zero, and a cell of
another size. -/
theorem cells_hold_bit_vectors_of_edges :
    let acts : List Cells.Action := [.make "r" 8 128, .make "s" 8 (-1), .share "q" "r", .binary .sdiv "q" "s",
      .binary .sub "s" "s", .binary .srem "r" "s", .make "t" 4 19]
    let s := (Cells.run {} acts).2
    let v := (Vectors.run {} acts).2
    (s.get? "r").map Prod.fst = some 0 ∧ (s.get? "q").map Prod.fst = some 0 ∧
      v.vectors = #[⟨8, BitVec.intMin 8⟩, ⟨8, 0#8⟩, ⟨4, 3#4⟩] ∧
      (∃ c, s.cells[0]? = some c ∧ c.size = 8 ∧ s.numbers.read c.value = (BitVec.intMin 8).toNat) ∧
      s.step (.binary .add "r" "t") = (.mismatch ⟨8, 4⟩, s) := by
  intro acts s v
  have hr : s.get? "r" = some (0, ⟨8, 0, 4⟩) := by decide
  have hq : s.get? "q" = some (0, ⟨8, 0, 4⟩) := by decide
  have ht : s.get? "t" = some (2, ⟨4, 5, 6⟩) := by decide
  have hv : v.vectors = #[⟨8, BitVec.intMin 8⟩, ⟨8, 0#8⟩, ⟨4, 3#4⟩] := by decide
  have hc : s.cells[0]? = some ⟨8, 0, 4⟩ := by decide
  obtain ⟨-, -, hcells, hrefused⟩ := cells_hold_bit_vectors acts
  have hcell : Option.Rel _ s.cells[0]? v.vectors[0]? := hcells 0
  rw [hc, hv] at hcell
  refine ⟨by rw [hr]; rfl, by rw [hq]; rfl, hv, ?_, (hrefused "r" "t" _ _ _ _ hr ht (by decide)).1 .add⟩
  cases hcell with
  | some hrel => exact ⟨_, hc, hrel.1, hrel.2.1⟩

end Pathwise
