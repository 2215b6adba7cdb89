import Mathlib.Data.Nat.Bitwise
import Mathlib.Tactic.Ring
import Pathwise.Proofs.WordBits
import Pathwise.Word.Cells

/-! Cells work on words. The value of a cell is an integer in memory that every operation writes over, with a mask that
is meant to keep it in range, or without one where the operation is said to need none. `Cell.Stands` says that a cell
stands for a word: the integer is the word's number, so it is in range, and the mask has the word's width. Each
operation on cells leaves the receiver standing for what the operation of that name on words gives, and changes no
other integer than its value (`Cell.Becomes`); this is so whether the argument is another cell or the receiver. -/

namespace Pathwise

/-! ### Bits of integers -/

namespace Numbers

theorem mask_eq (w : Nat) : (2 ^ w - 1 : Int) = Int.ofNat (2 ^ w - 1) := by
  have hpos : 1 ≤ 2 ^ w := Nat.one_le_two_pow
  rw [Int.ofNat_eq_natCast, Nat.cast_sub hpos]
  push_cast
  rfl

theorem testBit_without (m n i : Nat) : (without m n).testBit i = (m.testBit i && !n.testBit i) :=
  Nat.testBit_bitwise rfl m n i

/-- Cutting an integer of either sign down to a mask is taking its residue. -/
theorem and_mask (x : Int) (w : Nat) : and x (2 ^ w - 1) = x % 2 ^ w := by
  rw [mask_eq]
  cases x with
  | ofNat n =>
      change Int.ofNat (n &&& (2 ^ w - 1)) = _
      rw [Nat.and_two_pow_sub_one_eq_mod]
      rfl
  | negSucc n =>
      change Int.ofNat (without (2 ^ w - 1) n) = _
      have hlt : n % 2 ^ w < 2 ^ w := Nat.mod_lt n (Nat.two_pow_pos w)
      have hbits : without (2 ^ w - 1) n = 2 ^ w - (n % 2 ^ w + 1) := by
        apply Nat.eq_of_testBit_eq
        intro i
        rw [testBit_without, Nat.testBit_two_pow_sub_one, Nat.testBit_two_pow_sub_succ hlt, Nat.testBit_mod_two_pow]
        cases decide (i < w) <;> simp
      have hpos : (0 : Int) < 2 ^ w := by exact_mod_cast Nat.two_pow_pos w
      rw [hbits, Int.negSucc_emod n hpos, Int.ofNat_eq_natCast, Nat.cast_sub hlt]
      push_cast
      ring

theorem or_natCast (m n : Nat) : or m n = ((m ||| n : Nat) : Int) := rfl

theorem bitLength_le {n k : Nat} : bitLength (n : Int) ≤ k ↔ n < 2 ^ k := by
  unfold bitLength
  by_cases hn : n = 0
  · simp [hn]
  · rw [if_neg (by exact_mod_cast hn), Int.natAbs_natCast, Nat.add_one_le_iff, Nat.log2_lt hn]

/-! ### Reading what was written -/

variable {m : Numbers} {p q : Nat} {x y : Int}

/-- How many addresses are in use. -/
def size (m : Numbers) : Nat := m.integers.size

theorem read_write (hp : p < m.size) (q : Nat) : (m.write p x).read q = if p = q then x else m.read q := by
  unfold size at hp
  unfold read write
  rw [Array.getD_eq_getD_getElem?, Array.getElem?_setIfInBounds, Array.getD_eq_getD_getElem?]
  by_cases h : p = q
  · rw [if_pos h, if_pos h, if_pos hp]
    rfl
  · rw [if_neg h, if_neg h]

@[simp] theorem size_write (m : Numbers) (p : Nat) (x : Int) : (m.write p x).size = m.size :=
  Array.size_setIfInBounds

theorem read_write_self (hp : p < m.size) : (m.write p x).read p = x := by
  rw [read_write hp, if_pos rfl]

theorem read_write_of_ne (hp : p < m.size) (h : p ≠ q) : (m.write p x).read q = m.read q := by
  rw [read_write hp, if_neg h]

@[simp] theorem write_write (m : Numbers) (p : Nat) (x y : Int) : (m.write p x).write p y = m.write p y :=
  congrArg Numbers.mk (Array.setIfInBounds_setIfInBounds _)

@[simp] theorem address_new (m : Numbers) (x : Int) : (m.new x).1 = m.size := rfl

@[simp] theorem size_new (m : Numbers) (x : Int) : (m.new x).2.size = m.size + 1 := Array.size_push x

theorem read_new (m : Numbers) (x : Int) (q : Nat) : (m.new x).2.read q = if q = m.size then x else m.read q := by
  unfold read new size
  rw [Array.getD_eq_getD_getElem?, Array.getElem?_push, Array.getD_eq_getD_getElem?]
  by_cases h : q = m.integers.size
  · rw [if_pos h, if_pos h]
    rfl
  · rw [if_neg h, if_neg h]

theorem write_new (m : Numbers) (x y : Int) : (m.new x).2.write m.size y = (m.new y).2 := by
  unfold new write size
  congr 1
  apply Array.ext_getElem?
  intro i
  rw [Array.getElem?_setIfInBounds, Array.getElem?_push, Array.getElem?_push, Array.size_push]
  by_cases h : m.integers.size = i
  · simp [h]
  · rw [if_neg h, if_neg (Ne.symm h), if_neg (Ne.symm h)]

theorem makeMask_eq (m : Numbers) (w : Nat) : m.makeMask w = m.new (2 ^ w - 1) := by
  have hself : ∀ x, (m.new x).2.read m.size = x := fun x => by rw [read_new, if_pos rfl]
  have hone : (1 : Int) <<< w = 2 ^ w := by rw [Int.shiftLeft_eq, one_mul]
  unfold makeMask
  dsimp only [address_new]
  rw [hself, hone, write_new, hself, write_new]
  rfl

/-- Bringing an integer into the range of a mask is taking its residue. -/
theorem normalize_eq {v mask w : Nat} (hv : v < m.size) (hne : v ≠ mask) (hmask : m.read mask = 2 ^ w - 1) :
    m.normalize v mask = m.write v (m.read v % 2 ^ w) := by
  have hread : ∀ x, (m.write v x).read v = x := fun x => read_write_self hv
  have hkept : ∀ x, (m.write v x).read mask = 2 ^ w - 1 := fun x => (read_write_of_ne hv hne).trans hmask
  unfold normalize
  by_cases hneg : m.read v < 0
  · -- the mask less one less than the absolute value is the integer and the modulus
    have hsum : (2 ^ w - 1 - (-m.read v - 1) : Int) = m.read v + 2 ^ w := by ring
    simp only [if_pos hneg, write_write, hread, hkept, hsum, and_mask, Int.add_emod_right]
  · simp only [if_neg hneg, hmask, and_mask]

end Numbers

/-! ### Words by their numbers -/

namespace Word

theorem natCast_value_ofInt (w : Nat) (x : Int) : ((ofInt w x).value : Int) = x % 2 ^ w := by
  have hpos : (0 : Int) < 2 ^ w := by exact_mod_cast Nat.two_pow_pos w
  have hnonneg := Int.emod_nonneg x hpos.ne'
  have hlt := Int.emod_lt_of_pos x hpos
  have hvalue : (ofInt w x).value = (x % 2 ^ w).toNat % 2 ^ w := by
    change (x % ((2 ^ w : Nat) : Int)).toNat % 2 ^ w = _
    push_cast
    rfl
  have hsmall : (x % 2 ^ w).toNat < 2 ^ w := by
    rw [Int.toNat_lt hnonneg]
    exact_mod_cast hlt
  rw [hvalue, Nat.mod_eq_of_lt hsmall, Int.toNat_of_nonneg hnonneg]

theorem natCast_value_ofNat (w n : Nat) : ((ofNat w n).value : Int) = n % 2 ^ w := by
  change ((n % 2 ^ w : Nat) : Int) = _
  push_cast
  rfl

theorem value_ofNat_of_lt {w n : Nat} (h : n < 2 ^ w) : (ofNat w n).value = n := Nat.mod_eq_of_lt h

theorem ofNat_value (a : Word) : ofNat a.width a.value = a := by
  obtain ⟨w, v, hv⟩ := a
  simp only [ofNat, Nat.mod_eq_of_lt hv]

theorem value_ones (w : Nat) : ((ones w).value : Int) = 2 ^ w - 1 := by
  have hpos : (0 : Int) < 2 ^ w := by exact_mod_cast Nat.two_pow_pos w
  rw [ones, natCast_value_ofInt]
  calc (-1 : Int) % 2 ^ w = (2 ^ w - 1) % 2 ^ w := by rw [← Int.add_emod_right, neg_add_eq_sub]
    _ = 2 ^ w - 1 := Int.emod_eq_of_lt (by omega) (by omega)

theorem natCast_value_neg {a : Word} (h : a.isNegative = true) : (a.neg.value : Int) = -a.toInt := by
  have hpow : 2 ^ a.width ≤ 2 * a.value := of_decide_eq_true h
  have hpos : 0 < a.value := by
    have := Nat.two_pow_pos a.width
    omega
  have hlt : (a.value : Int) < 2 ^ a.width := by exact_mod_cast a.lt
  rw [neg, natCast_value_ofInt, toInt, if_pos h, ← Int.add_emod_right, neg_sub, neg_add_eq_sub]
  change (_ : Int) = ((2 ^ a.width : Nat) : Int) - a.value
  push_cast
  exact Int.emod_eq_of_lt (by omega) (by omega)

theorem shiftRight_lt (a : Word) (n : Nat) : a.value >>> n < 2 ^ a.width :=
  lt_of_le_of_lt (Nat.shiftRight_le _ _) a.lt

end Word

/-! ### Cells that stand for words -/

namespace Cell

open Numbers

variable {m m' : Numbers} {c o : Cell} {a b : Word}

/-- The cell stands for the word: the size is its width, the value its number, and the mask has all its bits. -/
structure Stands (m : Numbers) (c : Cell) (a : Word) : Prop where
  size : c.size = a.width
  pos : 0 < a.width
  value : m.read c.value = a.value
  mask : m.read c.mask = 2 ^ a.width - 1
  value_lt : c.value < m.size
  mask_lt : c.mask < m.size
  apart : c.value ≠ c.mask

/-- A cell goes on standing for its word while nobody writes to its value or its mask. -/
theorem Stands.frame (h : Stands m c a) (hsize : m.size ≤ m'.size) (hvalue : m'.read c.value = m.read c.value)
    (hmask : m'.read c.mask = m.read c.mask) : Stands m' c a :=
  { h with
    value := hvalue.trans h.value
    mask := hmask.trans h.mask
    value_lt := h.value_lt.trans_le hsize
    mask_lt := h.mask_lt.trans_le hsize }

theorem Stands.isNegative (h : Stands m c a) : c.isNegative m = a.isNegative := by
  have hlast : (a.bits a.width).msb = a.value.testBit (a.width - 1) := by
    rw [BitVec.msb_eq_getLsbD_last, ← BitVec.testBit_toNat, Word.toNat_bits rfl]
  rw [Cell.isNegative, h.value, h.size, Word.isNegative_eq_msb rfl, hlast]
  rfl

theorem Stands.isZero (h : Stands m c a) : c.isZero m = a.isZero := by
  rw [Cell.isZero, h.value, Word.isZero, Bool.eq_iff_iff, beq_iff_eq, beq_iff_eq]
  exact_mod_cast Iff.rfl

theorem Stands.isOne (h : Stands m c a) : c.isOne m = a.isOne := by
  rw [Cell.isOne, h.value, Word.isOne, Bool.eq_iff_iff, beq_iff_eq, beq_iff_eq]
  exact_mod_cast Iff.rfl

theorem Stands.isOnes (h : Stands m c a) : c.isOnes m = a.isOnes := by
  rw [Cell.isOnes, h.value, h.mask, Word.isOnes, Bool.eq_iff_iff, beq_iff_eq, beq_iff_eq]
  change (a.value : Int) = 2 ^ a.width - 1 ↔ a.value + 1 = 2 ^ a.width
  rw [eq_sub_iff_add_eq]
  exact_mod_cast Iff.rfl

theorem Stands.fits (h : Stands m c a) : c.fits m = a.fitsInt64 := by
  rw [Cell.fits, h.value, Word.fitsInt64]
  exact decide_eq_decide.mpr bitLength_le

theorem Stands.unsigned (h : Stands m c a) : c.unsigned m = a.toUInt64 := by
  rw [Cell.unsigned, h.value, Int.natAbs_natCast]
  rfl

theorem Stands.toInt (h : Stands m c a) : c.toInt m = a.toInt := by
  have hsum : (a.value - (2 ^ a.width - 1) - 1 : Int) = a.value - 2 ^ a.width := by ring
  rw [Cell.toInt, h.isNegative, h.value, h.mask, hsum, Word.toInt]
  change _ = if a.isNegative = true then (a.value : Int) - ((2 ^ a.width : Nat) : Int) else a.value
  push_cast
  rfl

/-! ### Operations -/

/-- The cell stands for the word after an operation. No integer has changed but its value, unless that is a new one. -/
structure Becomes (m : Numbers) (c : Cell) (result : Cell × Numbers) (a : Word) : Prop where
  stands : Stands result.2 result.1 a
  grows : m.size ≤ result.2.size
  frame : ∀ q < m.size, q ≠ c.value → result.2.read q = m.read q
  mask : result.1.mask = c.mask
  place : result.1.value = c.value ∨ m.size ≤ result.1.value

section

variable (h : Stands m c a) (h' : Stands m o b) {r : Word} (hwidth : r.width = a.width)

include h hwidth

theorem write_becomes {x : Int} (hx : x = r.value) : Becomes m c (c, m.write c.value x) r where
  stands := {
    size := h.size.trans hwidth.symm
    pos := hwidth ▸ h.pos
    value := (read_write_self h.value_lt).trans hx
    mask := by rw [read_write_of_ne h.value_lt h.apart, h.mask, hwidth]
    value_lt := (size_write m _ _).symm ▸ h.value_lt
    mask_lt := (size_write m _ _).symm ▸ h.mask_lt
    apart := h.apart }
  grows := (size_write m _ _).ge
  frame _ _ hq := read_write_of_ne h.value_lt (Ne.symm hq)
  mask := rfl
  place := Or.inl rfl

/-- Writing an integer and cutting it down to the mask. -/
theorem cut_becomes {x : Int} (hx : x % 2 ^ a.width = r.value) :
    Becomes m c (c, (m.write c.value x).write c.value
      (Numbers.and ((m.write c.value x).read c.value) ((m.write c.value x).read c.mask))) r := by
  rw [write_write, read_write_self h.value_lt, read_write_of_ne h.value_lt h.apart, h.mask, and_mask]
  exact write_becomes h hwidth hx

/-- Writing an integer and bringing it into range. -/
theorem normalize_becomes {x : Int} (hx : x % 2 ^ a.width = r.value) :
    Becomes m c (c, (m.write c.value x).normalize c.value c.mask) r := by
  have hmask : (m.write c.value x).read c.mask = 2 ^ a.width - 1 :=
    (read_write_of_ne h.value_lt h.apart).trans h.mask
  rw [normalize_eq ((size_write m _ _).symm ▸ h.value_lt) h.apart hmask, write_write, read_write_self h.value_lt]
  exact write_becomes h hwidth hx

include h'

theorem masked_becomes {op : Int → Int → Int} (hx : op a.value b.value % 2 ^ a.width = r.value) :
    Becomes m c (c, c.masked op o m) r := by
  unfold masked
  rw [h.value, h'.value]
  exact cut_becomes h hwidth hx

theorem bitwise_becomes {op : Int → Int → Int} (hx : op a.value b.value = r.value) :
    Becomes m c (c, c.bitwise op o m) r := by
  unfold bitwise
  rw [h.value, h'.value]
  exact write_becomes h hwidth hx

theorem replace_becomes {op : Int → Int → Int} (hx : op a.toInt b.toInt % 2 ^ a.width = r.value) :
    Becomes m c (c.replace op o m) r := by
  have hmask : ∀ x, (m.new x).2.read c.mask = 2 ^ a.width - 1 := fun x => by
    rw [read_new, if_neg h.mask_lt.ne, h.mask]
  have hself : ∀ x, (m.new x).2.read m.size = x := fun x => by rw [read_new, if_pos rfl]
  unfold replace
  rw [h.toInt, h'.toInt]
  dsimp only [address_new]
  rw [normalize_eq (by rw [size_new]; omega) h.mask_lt.ne' (hmask _), hself, write_new, hx]
  refine ⟨⟨h.size.trans hwidth.symm, hwidth ▸ h.pos, hself _, ?_, ?_, ?_, h.mask_lt.ne'⟩, ?_, fun q hq _ => ?_, rfl,
    Or.inr le_rfl⟩
  · rw [hmask, hwidth]
  · rw [size_new]
    exact Nat.lt_succ_self _
  · rw [size_new]
    exact h.mask_lt.trans (Nat.lt_succ_self _)
  · rw [size_new]
    exact Nat.le_succ _
  · rw [read_new, if_neg hq.ne]

end

theorem unary_becomes (h : Stands m c a) (op : Word.Unary) : Becomes m c (c, c.unary op m) (op.apply a) := by
  cases op with
  | not =>
      have hlt : a.value < 2 ^ a.width := a.lt
      have hnot : Int.not a.value = -(a.value : Int) - 1 := by
        change Int.negSucc a.value = _
        omega
      have hvalue : (a.not.value : Int) = 2 ^ a.width - 1 - a.value := by
        have hsmall : 2 ^ a.width - 1 - a.value < 2 ^ a.width := by omega
        change (((2 ^ a.width - 1 - a.value) % 2 ^ a.width : Nat) : Int) = _
        rw [Nat.mod_eq_of_lt hsmall]
        push_cast [Nat.le_sub_one_of_lt hlt, Nat.one_le_two_pow]
        rfl
      change Becomes m c (c, c.not m) a.not
      unfold Cell.not
      rw [h.value]
      refine cut_becomes (r := a.not) h rfl ?_
      rw [hvalue, hnot, ← Int.add_emod_right]
      have hcast : (a.value : Int) < 2 ^ a.width := by exact_mod_cast hlt
      have hsum : (-(a.value : Int) - 1 + 2 ^ a.width) = 2 ^ a.width - 1 - a.value := by ring
      rw [hsum]
      exact Int.emod_eq_of_lt (by omega) (by omega)
  | neg =>
      change Becomes m c (c, c.neg m) a.neg
      unfold Cell.neg
      rw [h.value]
      exact normalize_becomes (r := a.neg) h rfl (Word.natCast_value_ofInt _ _).symm

section

variable (h : Stands m c a) (h' : Stands m o b)

include h h'

theorem sdiv_becomes : Becomes m c (c.sdiv o m) (a.sdiv b) := by
  have hone : ((Word.one a.width).value : Int) = 1 := by
    exact_mod_cast Word.value_ofNat_of_lt (Nat.one_lt_two_pow h.pos.ne')
  unfold Cell.sdiv Word.sdiv
  rw [h'.isZero, h.isNegative, h.mask]
  split_ifs
  · exact write_becomes (r := .one a.width) h rfl hone.symm
  · exact write_becomes (r := .ones a.width) h rfl (Word.value_ones a.width).symm
  · exact replace_becomes (r := Word.ofInt _ _) h h' rfl (Word.natCast_value_ofInt _ _).symm

theorem srem_becomes : Becomes m c (c.srem o m) (a.srem b) := by
  unfold Cell.srem Word.srem
  rw [h'.isZero]
  split_ifs
  · exact ⟨h, le_rfl, fun _ _ _ => rfl, rfl, Or.inl rfl⟩
  · exact replace_becomes (r := Word.ofInt _ _) h h' rfl (Word.natCast_value_ofInt _ _).symm

/-- The operations on bits need no mask: two numbers in range have a result in range. -/
theorem binary_becomes (hwidth : a.width = b.width) (op : Word.Binary) :
    Becomes m c (c.binary op o m) (op.apply a b) := by
  have hlt : a.value < 2 ^ a.width := a.lt
  have hlt' : b.value < 2 ^ a.width := hwidth ▸ b.lt
  cases op with
  | add =>
      refine masked_becomes (r := a.add b) h h' rfl ?_
      rw [← Nat.cast_add]
      exact (Word.natCast_value_ofNat _ _).symm
  | sub =>
      change Becomes m c (c, c.sub o m) (a.sub b)
      unfold Cell.sub
      rw [h.value, h'.value]
      exact normalize_becomes (r := a.sub b) h rfl (Word.natCast_value_ofInt _ _).symm
  | mul =>
      refine masked_becomes (r := a.mul b) h h' rfl ?_
      rw [← Nat.cast_mul]
      exact (Word.natCast_value_ofNat _ _).symm
  | sdiv => exact sdiv_becomes h h'
  | srem => exact srem_becomes h h'
  | and =>
      refine bitwise_becomes (r := a.and b) h h' rfl ?_
      exact congrArg Nat.cast (Word.value_ofNat_of_lt (Nat.and_lt_two_pow _ hlt')).symm
  | or =>
      refine bitwise_becomes (r := a.or b) h h' rfl ?_
      exact congrArg Nat.cast (Word.value_ofNat_of_lt (Nat.or_lt_two_pow hlt hlt')).symm
  | xor =>
      refine bitwise_becomes (r := a.xor b) h h' rfl ?_
      exact congrArg Nat.cast (Word.value_ofNat_of_lt (Nat.xor_lt_two_pow hlt hlt')).symm

theorem test_eq (op : Word.Test) : c.test op o m = op.apply a b := by
  cases op <;> simp [Cell.test, Word.Test.apply, Word.eq, Word.ult, Word.slt, Word.sle, Word.sgt, Word.sge,
    h.value, h'.value, h.toInt, h'.toInt]

end

theorem Becomes.trans {d : Cell} {m' : Numbers} {p : Cell × Numbers} {r r' : Word} (h : Becomes m c (d, m') r)
    (h' : Becomes m' d p r') : Becomes m c p r' where
  stands := h'.stands
  grows := h.grows.trans h'.grows
  frame q hq hne := by
    have hne' : q ≠ d.value := fun heq => by
      rcases h.place with hplace | hplace <;> dsimp only at hplace <;> omega
    rw [h'.frame q (hq.trans_le h.grows) hne', h.frame q hq hne]
  mask := h'.mask.trans h.mask
  place := by
    have := h.grows
    rcases h'.place with hplace | hplace
    · rw [hplace]
      exact h.place
    · exact Or.inr (this.trans hplace)

/-- An integer that no cell has is put into memory. -/
theorem Stands.new_becomes (h : Stands m c a) (x : Int) : Becomes m c (c, (m.new x).2) a where
  stands := h.frame (by rw [size_new]; exact Nat.le_succ _) (by rw [read_new, if_neg h.value_lt.ne])
    (by rw [read_new, if_neg h.mask_lt.ne])
  grows := by
    rw [size_new]
    exact Nat.le_succ _
  frame q hq _ := by rw [read_new, if_neg hq.ne]
  mask := rfl
  place := Or.inl rfl

theorem shl_becomes (h : Stands m c a) (n : Nat) : Becomes m c (c, c.shl n m) (a.shl n) := by
  unfold Cell.shl Word.shl
  rw [h.size, h.value, apply_ite (Prod.mk c)]
  split_ifs with hn
  · exact write_becomes (r := .zero a.width) h rfl (by simp [Word.zero, Word.ofNat])
  · exact cut_becomes (r := .ofNat _ _) h rfl (Word.natCast_value_ofNat _ _).symm

theorem lshr_becomes (h : Stands m c a) (n : Nat) : Becomes m c (c, c.lshr n m) (a.lshr n) := by
  unfold Cell.lshr Word.lshr
  rw [h.size, h.value, apply_ite (Prod.mk c)]
  split_ifs with hn
  · exact write_becomes (r := .zero a.width) h rfl (by simp [Word.zero, Word.ofNat])
  · exact write_becomes (r := .ofNat _ _) h rfl (congrArg Nat.cast (Word.value_ofNat_of_lt (a.shiftRight_lt n)).symm)

/-- A mask is moved up and joined to the value. It stays behind in memory. -/
theorem fill_becomes (h : Stands m c a) {n k : Nat} (hlt : (2 ^ n - 1) <<< k < 2 ^ a.width) :
    Becomes m c
      (c,
        let (fill, m) := m.makeMask n
        let m := m.write fill (m.read fill <<< k)
        m.write c.value (Numbers.or (m.read c.value) (m.read fill)))
      (.ofNat a.width (a.value ||| (2 ^ n - 1) <<< k)) := by
  have hbits : ((2 ^ n - 1 : Int) <<< k) = (((2 ^ n - 1) <<< k : Nat) : Int) := by
    rw [Int.shiftLeft_eq, Nat.shiftLeft_eq]
    push_cast [Nat.one_le_two_pow]
    rfl
  have hself : ∀ x, (m.new x).2.read m.size = x := fun x => by rw [read_new, if_pos rfl]
  simp only [makeMask_eq, address_new, hself, write_new, hbits]
  have hnew := h.new_becomes (((2 ^ n - 1) <<< k : Nat) : Int)
  refine hnew.trans ?_
  rw [hnew.stands.value, or_natCast]
  exact write_becomes (r := .ofNat _ _) hnew.stands rfl
    (congrArg Nat.cast (Word.value_ofNat_of_lt (Nat.or_lt_two_pow a.lt hlt)).symm)

theorem ashr_becomes (h : Stands m c a) (n : Nat) : Becomes m c (c, c.ashr n m) (a.ashr n) := by
  unfold Cell.ashr Word.ashr
  rw [h.size, h.isNegative, h.value, h.mask]
  by_cases hn : a.width ≤ n
  · rw [if_pos hn, if_pos hn]
    split_ifs
    · exact write_becomes (r := .ones a.width) h rfl (Word.value_ones a.width).symm
    · exact write_becomes (r := .zero a.width) h rfl (by simp [Word.zero, Word.ofNat])
  · rw [if_neg hn, if_neg hn]
    by_cases hzero : n = 0
    · subst hzero
      simp only [if_pos, Nat.shiftRight_zero, Nat.pow_eq, pow_zero, Nat.sub_self, Nat.zero_shiftLeft, Nat.or_zero,
        ite_self, Word.ofNat_value]
      exact ⟨h, le_rfl, fun _ _ _ => rfl, rfl, Or.inl rfl⟩
    · have hmove := write_becomes (r := .ofNat a.width (a.value >>> n)) h rfl
        (congrArg Nat.cast (Word.value_ofNat_of_lt (a.shiftRight_lt n)).symm)
      rw [if_neg hzero]
      split_ifs with hneg
      · have hlt : (2 ^ n - 1) <<< (a.width - n) < 2 ^ a.width := by
          rw [Nat.shiftLeft_eq, ← Nat.add_sub_of_le (Nat.le_of_not_le hn), pow_add, Nat.add_sub_cancel_left]
          exact Nat.mul_lt_mul_of_pos_right (Nat.sub_lt (Nat.two_pow_pos n) Nat.one_pos) (Nat.two_pow_pos _)
        have hfill := fill_becomes hmove.stands hlt
        rw [Word.value_ofNat_of_lt (a.shiftRight_lt n)] at hfill
        exact hmove.trans hfill
      · exact hmove

theorem shift_becomes (h : Stands m c a) (op : Word.Shift) (n : Nat) :
    Becomes m c (c, c.shift op n m) (op.apply a n) := by
  cases op with
  | shl => exact shl_becomes h n
  | lshr => exact lshr_becomes h n
  | ashr => exact ashr_becomes h n

/-! ### New cells -/

/-- A new cell stands for the word, at addresses that were not in use. -/
structure Appears (m : Numbers) (result : Cell × Numbers) (a : Word) : Prop where
  stands : Stands result.2 result.1 a
  grows : m.size ≤ result.2.size
  frame : ∀ q < m.size, result.2.read q = m.read q
  value : m.size ≤ result.1.value
  mask : m.size ≤ result.1.mask

/-- A mask and a value are put into memory, one after the other. -/
theorem new_appears (m : Numbers) (hpos : 0 < a.width) :
    Appears m (⟨a.width, m.size, m.size + 1⟩, ((m.new (2 ^ a.width - 1)).2.new a.value).2) a := by
  have hread : ∀ q, ((m.new (2 ^ a.width - 1)).2.new a.value).2.read q =
      if q = m.size + 1 then (a.value : Int) else if q = m.size then 2 ^ a.width - 1 else m.read q := fun q => by
    rw [read_new, read_new, size_new]
  have hsize : ((m.new (2 ^ a.width - 1)).2.new a.value).2.size = m.size + 2 := by rw [size_new, size_new]
  refine ⟨⟨rfl, hpos, ?_, ?_, ?_, ?_, (Nat.lt_succ_self _).ne'⟩, ?_, fun q hq => ?_, Nat.le_succ _, le_rfl⟩
  · rw [hread, if_pos rfl]
  · rw [hread, if_neg (Nat.lt_succ_self _).ne, if_pos rfl]
  · rw [hsize]
    exact Nat.lt_succ_self _
  · rw [hsize]
    exact Nat.lt_add_of_pos_right Nat.two_pos
  · rw [hsize]
    exact Nat.le_add_right _ _
  · rw [hread, if_neg (by omega), if_neg hq.ne]

theorem make_appears (m : Numbers) {w : Nat} (hpos : 0 < w) (x : Int) : Appears m (make w x m) (.ofInt w x) := by
  have hmask : ((m.new (2 ^ w - 1)).2.new x).2.read m.size = 2 ^ w - 1 := by
    rw [read_new, read_new, size_new, if_neg (Nat.lt_succ_self _).ne, if_pos rfl]
  have hvalue : ((m.new (2 ^ w - 1)).2.new x).2.read (m.size + 1) = x := by
    rw [read_new, size_new, if_pos rfl]
  have hlt : m.size + 1 < ((m.new (2 ^ w - 1)).2.new x).2.size := by
    rw [size_new, size_new]
    exact Nat.lt_succ_self _
  have hwrite : ∀ y, ((m.new (2 ^ w - 1)).2.new x).2.write (m.size + 1) y = ((m.new (2 ^ w - 1)).2.new y).2 :=
    fun y => by rw [← size_new m (2 ^ w - 1), write_new]
  unfold make
  simp only [makeMask_eq, address_new, size_new]
  rw [normalize_eq hlt (Nat.lt_succ_self _).ne' hmask, hvalue, hwrite, ← Word.natCast_value_ofInt]
  exact new_appears (a := .ofInt w x) m hpos

theorem copy_appears (h : Stands m c a) : Appears m (c.copy m) a := by
  unfold copy
  simp only [address_new, size_new, read_new, if_neg h.value_lt.ne, h.size, h.value, h.mask]
  exact new_appears m h.pos

/-- Of a negative word the negated copy tells the absolute value. -/
theorem Stands.signed (h : Stands m c a) : c.signed m = a.toInt64 := by
  have hlow := (unary_becomes (copy_appears h).stands .neg).stands.unsigned
  unfold Cell.signed
  rw [h.isNegative, h.value]
  split_ifs with hsign
  · calc -((c.copy m).1.unsigned ((c.copy m).1.neg (c.copy m).2)).toInt64
      _ = -a.neg.toUInt64.toInt64 := congrArg (fun u : UInt64 => -u.toInt64) hlow
      _ = -Int64.ofInt a.neg.value := by rw [Word.toUInt64, UInt64.toInt64_ofNat', Int64.ofInt_eq_ofNat]
      _ = a.toInt64 := by rw [← Int64.ofInt_neg, Word.natCast_value_neg hsign, neg_neg, Word.toInt64]
  · rw [Word.toInt64, Word.toInt, if_neg hsign]

theorem Stands.snapshot (h : Stands m c a) : c.snapshot m = a.snapshot := by
  unfold Cell.snapshot Word.snapshot
  rw [h.size, h.value, h.isNegative, h.isZero, h.isOne, h.isOnes, h.fits, h.unsigned, h.signed]

end Cell
end Pathwise
