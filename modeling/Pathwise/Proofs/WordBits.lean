import Mathlib.Data.BitVec
import Pathwise.Word

/-! Words as bit vectors. `Word.bits` reads a word at a width; at its own width nothing is lost, and
every operation on words is the operation of that name on bit vectors, with the solvers' conventions
for division by zero and for shifts by the width or more. The value of a word is a residue modulo
`2 ^ width`, so most operations reduce to a fact about residues; the signed ones go through
`toInt`. -/

namespace Pathwise.Word

variable {w : Nat} {a b : Word}

/-- The word read as a vector of `w` bits. -/
def bits (w : Nat) (a : Word) : BitVec w := BitVec.ofNat w a.value

theorem toNat_bits (ha : a.width = w) : (a.bits w).toNat = a.value := by
  have hlt : a.value < 2 ^ w := ha ▸ a.lt
  rw [bits, BitVec.toNat_ofNat, Nat.mod_eq_of_lt hlt]

@[simp] theorem width_ofNat (w n : Nat) : (ofNat w n).width = w := rfl

@[simp] theorem width_ofInt (w : Nat) (v : Int) : (ofInt w v).width = w := rfl

@[simp] theorem bits_ofNat (w n : Nat) : (ofNat w n).bits w = BitVec.ofNat w n := by
  apply BitVec.eq_of_toNat_eq
  rw [toNat_bits (width_ofNat w n), BitVec.toNat_ofNat]
  rfl

@[simp] theorem bits_ofInt (w : Nat) (v : Int) : (ofInt w v).bits w = BitVec.ofInt w v := by
  rw [ofInt, bits_ofNat]
  apply BitVec.eq_of_toNat_eq
  rw [BitVec.toNat_ofNat, BitVec.toNat_ofInt]
  have hpos : (0 : Int) < ((2 ^ w : Nat) : Int) := by exact_mod_cast Nat.two_pow_pos w
  have hlt : (v % ((2 ^ w : Nat) : Int)).toNat < 2 ^ w := by
    have := Int.emod_lt_of_pos v hpos
    have := Int.emod_nonneg v hpos.ne'
    omega
  exact Nat.mod_eq_of_lt hlt

@[simp] theorem width_zero (w : Nat) : (zero w).width = w := rfl
@[simp] theorem width_ones (w : Nat) : (ones w).width = w := rfl

theorem bits_ofInt64 (v : Int64) : (ofInt64 v).bits 64 = v.toBitVec := (bits_ofInt 64 _).trans BitVec.ofInt_toInt

@[simp] theorem bits_zero (w : Nat) : (zero w).bits w = 0#w := bits_ofNat w 0

@[simp] theorem bits_one (w : Nat) : (one w).bits w = 1#w := bits_ofNat w 1

@[simp] theorem bits_ones (w : Nat) : (ones w).bits w = BitVec.allOnes w := by
  rw [ones, bits_ofInt, BitVec.ofInt_neg, ← BitVec.neg_one_eq_allOnes]
  rfl

/-! ### Views -/

theorem isZero_iff (ha : a.width = w) : a.isZero = true ↔ a.bits w = 0#w := by
  rw [← BitVec.toNat_inj, toNat_bits ha, isZero, beq_iff_eq]
  simp

theorem bits_of_isOne (h : a.isOne = true) : a.bits w = 1#w := by
  rw [isOne, beq_iff_eq] at h
  rw [bits, h]

theorem isOnes_iff (ha : a.width = w) : a.isOnes = true ↔ a.bits w = BitVec.allOnes w := by
  subst ha
  rw [← BitVec.toNat_inj, toNat_bits rfl, isOnes, beq_iff_eq, BitVec.toNat_allOnes]
  have := Nat.two_pow_pos a.width
  change a.value + 1 = 2 ^ a.width ↔ _
  omega

theorem toInt_bits (ha : a.width = w) : (a.bits w).toInt = a.toInt := by
  subst ha
  rw [BitVec.toInt_eq_toNat_cond, toNat_bits rfl, toInt, isNegative]
  change _ = if decide (2 ^ a.width ≤ 2 * a.value) = true then _ else _
  by_cases h : 2 * a.value < 2 ^ a.width
  · rw [if_pos h, if_neg (by simpa using h)]
  · rw [if_neg h, if_pos (by simpa using h)]
    rfl

theorem isNegative_eq_msb (ha : a.width = w) : a.isNegative = (a.bits w).msb := by
  subst ha
  rw [Bool.eq_iff_iff, BitVec.msb_eq_true_iff_two_mul_ge, toNat_bits rfl, isNegative, decide_eq_true_iff]
  rfl

/-! ### Operations -/

@[simp] theorem width_not (a : Word) : a.not.width = a.width := rfl
@[simp] theorem width_neg (a : Word) : a.neg.width = a.width := rfl
@[simp] theorem width_add (a b : Word) : (a.add b).width = a.width := rfl
@[simp] theorem width_sub (a b : Word) : (a.sub b).width = a.width := rfl
@[simp] theorem width_mul (a b : Word) : (a.mul b).width = a.width := rfl
@[simp] theorem width_and (a b : Word) : (a.and b).width = a.width := rfl
@[simp] theorem width_or (a b : Word) : (a.or b).width = a.width := rfl
@[simp] theorem width_xor (a b : Word) : (a.xor b).width = a.width := rfl

@[simp] theorem width_sdiv (a b : Word) : (a.sdiv b).width = a.width := by
  unfold sdiv
  split_ifs <;> rfl

@[simp] theorem width_srem (a b : Word) : (a.srem b).width = a.width := by
  unfold srem
  split_ifs <;> rfl

@[simp] theorem width_shl (a : Word) (n : Nat) : (a.shl n).width = a.width := by
  unfold shl
  split_ifs <;> rfl

@[simp] theorem width_lshr (a : Word) (n : Nat) : (a.lshr n).width = a.width := by
  unfold lshr
  split_ifs <;> rfl

@[simp] theorem width_ashr (a : Word) (n : Nat) : (a.ashr n).width = a.width := by
  unfold ashr
  split_ifs <;> rfl

theorem bits_not (ha : a.width = w) : a.not.bits w = ~~~a.bits w := by
  subst ha
  rw [not, bits_ofNat]
  apply BitVec.eq_of_toNat_eq
  have hlt : a.value < 2 ^ a.width := a.lt
  have hcomplement : 2 ^ a.width - 1 - a.value < 2 ^ a.width := by omega
  rw [BitVec.toNat_not, toNat_bits rfl, BitVec.toNat_ofNat]
  exact Nat.mod_eq_of_lt hcomplement

theorem bits_neg (ha : a.width = w) : a.neg.bits w = -a.bits w := by
  subst ha
  rw [neg, bits_ofInt, BitVec.ofInt_neg, BitVec.ofInt_natCast]
  rfl

theorem bits_add (ha : a.width = w) : (a.add b).bits w = a.bits w + b.bits w := by
  subst ha
  rw [add, bits_ofNat, BitVec.ofNat_add]
  rfl

theorem bits_sub (ha : a.width = w) : (a.sub b).bits w = a.bits w - b.bits w := by
  subst ha
  rw [sub, bits_ofInt, Int.sub_eq_add_neg, BitVec.ofInt_add, BitVec.ofInt_neg, BitVec.ofInt_natCast,
    BitVec.ofInt_natCast, BitVec.sub_eq_add_neg]
  rfl

theorem bits_mul (ha : a.width = w) : (a.mul b).bits w = a.bits w * b.bits w := by
  subst ha
  rw [mul, bits_ofNat, BitVec.ofNat_mul]
  rfl

theorem bits_and (ha : a.width = w) : (a.and b).bits w = a.bits w &&& b.bits w := by
  subst ha
  rw [and, bits_ofNat, BitVec.ofNat_and]
  rfl

theorem bits_or (ha : a.width = w) : (a.or b).bits w = a.bits w ||| b.bits w := by
  subst ha
  rw [or, bits_ofNat, BitVec.ofNat_or]
  rfl

theorem bits_xor (ha : a.width = w) : (a.xor b).bits w = a.bits w ^^^ b.bits w := by
  subst ha
  rw [xor, bits_ofNat, BitVec.ofNat_xor]
  rfl

/-- Away from a zero divisor the solvers' signed division is the truncating one. -/
theorem smtSDiv_of_ne_zero {x y : BitVec w} (hy : y ≠ 0#w) : x.smtSDiv y = x.sdiv y := by
  have hneg : -y ≠ 0#w := fun h => hy (by simpa using h)
  rw [BitVec.smtSDiv_eq, BitVec.sdiv_eq]
  simp only [BitVec.smtUDiv_eq, if_neg hy, if_neg hneg]
  rfl

/-- Division by one changes nothing, also where there are no bits and one is zero. -/
theorem smtSDiv_one {x : BitVec w} : x.smtSDiv 1#w = x := by
  by_cases h : (1#w : BitVec w) = 0#w
  · have hw : w = 0 := by
      by_contra hw
      have := congrArg BitVec.toNat h
      rw [BitVec.toNat_ofNat, BitVec.toNat_ofNat, Nat.mod_eq_of_lt (Nat.one_lt_two_pow hw)] at this
      simp at this
    subst hw
    exact BitVec.eq_of_toNat_eq (by simp [BitVec.of_length_zero])
  · rw [smtSDiv_of_ne_zero h, BitVec.sdiv_one]

theorem bits_sdiv (ha : a.width = w) (hb : b.width = w) :
    (a.sdiv b).bits w = (a.bits w).smtSDiv (b.bits w) := by
  have hzero := isZero_iff hb
  subst ha
  unfold sdiv
  by_cases h : b.isZero = true
  · rw [if_pos h, hzero.mp h, BitVec.smtSDiv_zero, BitVec.slt_zero_eq_msb, ← isNegative_eq_msb rfl]
    split_ifs <;> simp
  · rw [if_neg h, smtSDiv_of_ne_zero (fun e => h (hzero.mpr e)), bits_ofInt]
    apply BitVec.eq_of_toInt_eq
    rw [BitVec.toInt_ofInt, BitVec.toInt_sdiv, toInt_bits rfl, toInt_bits hb]

theorem bits_srem (ha : a.width = w) (hb : b.width = w) :
    (a.srem b).bits w = (a.bits w).srem (b.bits w) := by
  have hzero := isZero_iff hb
  subst ha
  unfold srem
  by_cases h : b.isZero = true
  · rw [if_pos h, hzero.mp h, BitVec.srem_zero]
  · rw [if_neg h, bits_ofInt]
    apply BitVec.eq_of_toInt_eq
    rw [← toInt_bits rfl, ← toInt_bits hb, ← BitVec.toInt_srem, BitVec.ofInt_toInt]

theorem bits_shl (ha : a.width = w) (n : Nat) : (a.shl n).bits w = a.bits w <<< n := by
  subst ha
  unfold shl
  by_cases h : a.width ≤ n
  · rw [if_pos h, bits_zero, BitVec.shiftLeft_eq_zero h]
  · rw [if_neg h, bits_ofNat]
    apply BitVec.eq_of_toNat_eq
    rw [BitVec.toNat_shiftLeft, toNat_bits rfl, BitVec.toNat_ofNat]

theorem bits_lshr (ha : a.width = w) (n : Nat) : (a.lshr n).bits w = a.bits w >>> n := by
  subst ha
  unfold lshr
  by_cases h : a.width ≤ n
  · rw [if_pos h, bits_zero, BitVec.ushiftRight_eq_zero h]
  · rw [if_neg h, bits_ofNat]
    apply BitVec.eq_of_toNat_eq
    have hlt : a.value >>> n < 2 ^ a.width := (Nat.shiftRight_le _ _).trans_lt a.lt
    rw [BitVec.toNat_ushiftRight, toNat_bits rfl, BitVec.toNat_ofNat, Nat.mod_eq_of_lt hlt]

theorem bits_ashr (ha : a.width = w) (n : Nat) : (a.ashr n).bits w = (a.bits w).sshiftRight n := by
  subst ha
  have hmsb := isNegative_eq_msb (a := a) rfl
  have hbit : ∀ i, (a.bits a.width).getLsbD i = a.value.testBit i := fun i => by
    rw [← BitVec.testBit_toNat, toNat_bits rfl]
  have hbeyond : ∀ i, a.width ≤ i → a.value.testBit i = false := fun i hi =>
    Nat.testBit_lt_two_pow (a.lt.trans_le (Nat.pow_le_pow_right (by omega) hi))
  unfold ashr
  apply BitVec.eq_of_getLsbD_eq
  intro i hi
  rw [BitVec.getLsbD_sshiftRight, hbit, ← hmsb]
  by_cases hn : a.width ≤ n
  · have hout : ¬n + i < a.width := by omega
    rw [if_pos hn]
    cases hneg : a.isNegative <;> simp [hi, hout]
  · rw [if_neg hn]
    cases hneg : a.isNegative with
    | false =>
        -- Above the shifted bits a word that is not negative has none.
        rw [if_neg (by simp), bits_ofNat, BitVec.getLsbD_ofNat, Nat.testBit_shiftRight]
        by_cases hin : n + i < a.width
        · simp [hi, hin]
        · simp [hin, hbeyond (n + i) (by omega)]
    | true =>
        rw [if_pos rfl, bits_ofNat, BitVec.getLsbD_ofNat, Nat.testBit_or, Nat.testBit_shiftRight,
          Nat.testBit_shiftLeft, show Nat.pow 2 n = 2 ^ n from rfl, Nat.testBit_two_pow_sub_one]
        by_cases hin : n + i < a.width
        · simp [hi, hin, show ¬ a.width - n ≤ i by omega]
        · simp [hi, hin, show a.width - n ≤ i by omega, show i - (a.width - n) < n by omega]

/-! ### Comparisons -/

theorem eq_iff_bits (ha : a.width = w) (hb : b.width = w) : a.eq b = (a.bits w == b.bits w) := by
  rw [eq, Bool.eq_iff_iff, beq_iff_eq, beq_iff_eq, ← BitVec.toNat_inj, toNat_bits ha, toNat_bits hb]

theorem ult_eq_bits (ha : a.width = w) (hb : b.width = w) : a.ult b = (a.bits w).ult (b.bits w) := by
  rw [ult, BitVec.ult, toNat_bits ha, toNat_bits hb]

theorem slt_eq_bits (ha : a.width = w) (hb : b.width = w) : a.slt b = (a.bits w).slt (b.bits w) := by
  rw [slt, BitVec.slt, toInt_bits ha, toInt_bits hb]

theorem sle_eq_bits (ha : a.width = w) (hb : b.width = w) : a.sle b = (a.bits w).sle (b.bits w) := by
  rw [sle, BitVec.sle, toInt_bits ha, toInt_bits hb]

end Pathwise.Word
