import Pathwise.Proofs.Negation
import Pathwise.Symbolic.Value

/-! Machine integers against bit vectors. Every operation that tracked integers compute natively is the
operation of bit vectors which their terms are built with: division and remainder by zero, the least
integer divided by -1, and shift amounts that read as 64 or more are where the two could differ. From
this every constructor that an operation on integers uses stands for the native operation. -/

namespace Pathwise

/-! ### Native operations -/

namespace Arith

theorem toBitVec_div (a b : Int64) : (div a b).toBitVec = a.toBitVec.smtSDiv b.toBitVec := by
  unfold div
  split_ifs with hzero hneg hmin
  · have hneg : a.toBitVec.slt 0#64 = true := Int64.lt_iff_toBitVec_slt.mp hneg
    rw [hzero, Int64.toBitVec_zero, BitVec.smtSDiv_zero, if_pos hneg]
    rfl
  · have hneg : ¬a.toBitVec.slt 0#64 = true := fun h => hneg (Int64.lt_iff_toBitVec_slt.mpr h)
    rw [hzero, Int64.toBitVec_zero, BitVec.smtSDiv_zero, if_neg hneg]
    rfl
  · obtain ⟨rfl, rfl⟩ := hmin
    decide
  · have hb : b.toBitVec ≠ 0#64 := fun h => hzero (Int64.toBitVec_inj.mp h)
    rw [Word.smtSDiv_of_ne_zero hb, Int64.toBitVec_div]

theorem toBitVec_rem (a b : Int64) : (rem a b).toBitVec = a.toBitVec.srem b.toBitVec := by
  unfold rem
  split_ifs with hzero hone
  · rw [hzero, Int64.toBitVec_zero, BitVec.srem_zero]
  · apply BitVec.eq_of_toInt_eq
    have hb : b.toBitVec.toInt = -1 := by rw [hone]; rfl
    rw [BitVec.toInt_srem, hb, Int.tmod_neg, Int.tmod_one]
    rfl
  · exact Int64.toBitVec_mod

/-- An amount below 64 is left alone by the shifts of machine integers. -/
theorem smod_of_lt {v : BitVec 64} (h : v.toNat < 64) : v.smod 64 = v := by
  have hmsb : v.msb = false := by
    rw [BitVec.msb_eq_decide, decide_eq_false_iff_not]
    omega
  rw [BitVec.smod_eq, hmsb]
  apply BitVec.eq_of_toNat_eq
  exact Nat.mod_eq_of_lt h

theorem lt_of_not_le {b : Int64} (h : ¬64 ≤ b.toUInt64) : b.toBitVec.toNat < 64 := by
  rw [UInt64.not_le] at h
  exact UInt64.lt_iff_toNat_lt.mp h

theorem toBitVec_shl (a b : Int64) : (shl a b).toBitVec = a.toBitVec <<< b.toBitVec.toNat := by
  unfold shl
  split_ifs with h
  · exact (BitVec.shiftLeft_eq_zero (UInt64.le_iff_toNat_le.mp h)).symm
  · rw [Int64.toBitVec_shiftLeft, smod_of_lt (lt_of_not_le h)]
    rfl

theorem toBitVec_lshr (a b : Int64) : (lshr a b).toBitVec = a.toBitVec >>> b.toBitVec.toNat := by
  unfold lshr
  split_ifs with h
  · exact (BitVec.ushiftRight_eq_zero (UInt64.le_iff_toNat_le.mp h)).symm
  · have hmod : b.toBitVec % 64 = b.toBitVec := BitVec.eq_of_toNat_eq (Nat.mod_eq_of_lt (lt_of_not_le h))
    rw [UInt64.toBitVec_toInt64, UInt64.toBitVec_shiftRight]
    exact congrArg (a.toBitVec >>> ·) hmod

theorem msb_toBitVec (a : Int64) : a.toBitVec.msb = decide (a < 0) := by
  rw [Bool.eq_iff_iff, decide_eq_true_iff, Int64.lt_iff_toBitVec_slt, Int64.toBitVec_zero,
    BitVec.slt_zero_iff_msb_cond]

theorem toBitVec_ashr (a b : Int64) : (ashr a b).toBitVec = a.toBitVec.sshiftRight b.toBitVec.toNat := by
  have hmsb := msb_toBitVec a
  unfold ashr
  split_ifs with h hneg
  · have hamount : 64 ≤ b.toBitVec.toNat := UInt64.le_iff_toNat_le.mp h
    rw [decide_eq_true hneg] at hmsb
    rw [BitVec.sshiftRight_eq_of_msb_true hmsb, BitVec.ushiftRight_eq_zero hamount]
    rfl
  · have hamount : 64 ≤ b.toBitVec.toNat := UInt64.le_iff_toNat_le.mp h
    rw [decide_eq_false hneg] at hmsb
    rw [BitVec.sshiftRight_eq_of_msb_false hmsb, BitVec.ushiftRight_eq_zero hamount]
    rfl
  · rw [Int64.toBitVec_shiftRight, smod_of_lt (lt_of_not_le h)]
    rfl

end Arith

variable {w : Nat}

/-- The operation of bit vectors that an operation on integers builds. -/
def IntOp.bits : IntOp → BitVec w → BitVec w → BitVec w
  | .add, x, y => x + y
  | .sub, x, y => x - y
  | .mul, x, y => x * y
  | .div, x, y => x.smtSDiv y
  | .rem, x, y => x.srem y
  | .and, x, y => x &&& y
  | .or, x, y => x ||| y
  | .xor, x, y => x ^^^ y
  | .shl, x, y => x <<< y.toNat
  | .ashr, x, y => x.sshiftRight y.toNat
  | .lshr, x, y => x >>> y.toNat

def IntCompare.bits : IntCompare → BitVec w → BitVec w → Bool
  | .lt, x, y => x.slt y
  | .le, x, y => x.sle y
  | .gt, x, y => y.slt x
  | .ge, x, y => y.sle x
  | .eq, x, y => x == y
  | .ne, x, y => x != y

theorem IntOp.toBitVec_apply (op : IntOp) (a b : Int64) :
    (op.apply a b).toBitVec = op.bits a.toBitVec b.toBitVec := by
  cases op with
  | add => exact Int64.toBitVec_add
  | sub => exact Int64.toBitVec_sub
  | mul => exact Int64.toBitVec_mul
  | div => exact Arith.toBitVec_div a b
  | rem => exact Arith.toBitVec_rem a b
  | and => exact Int64.toBitVec_and a b
  | or => exact Int64.toBitVec_or a b
  | xor => exact Int64.toBitVec_xor a b
  | shl => exact Arith.toBitVec_shl a b
  | ashr => exact Arith.toBitVec_ashr a b
  | lshr => exact Arith.toBitVec_lshr a b

theorem UnaryOp.toBitVec_applyInt (op : UnaryOp) (a : Int64) :
    (op.applyInt a).toBitVec = op.bits a.toBitVec := by
  cases op with
  | not => exact Int64.toBitVec_not
  | neg => exact Int64.toBitVec_neg a

theorem IntCompare.apply_eq_bits (op : IntCompare) (a b : Int64) :
    op.apply a b = op.bits a.toBitVec b.toBitVec := by
  rw [Bool.eq_iff_iff]
  cases op with
  | lt => exact decide_eq_true_iff.trans Int64.lt_iff_toBitVec_slt
  | le => exact decide_eq_true_iff.trans Int64.le_iff_toBitVec_sle
  | gt => exact decide_eq_true_iff.trans Int64.lt_iff_toBitVec_slt
  | ge => exact decide_eq_true_iff.trans Int64.le_iff_toBitVec_sle
  | eq =>
      change (a == b) = true ↔ (a.toBitVec == b.toBitVec) = true
      rw [beq_iff_eq, beq_iff_eq, Int64.toBitVec_inj]
  | ne =>
      change (a != b) = true ↔ (a.toBitVec != b.toBitVec) = true
      rw [bne_iff_ne, bne_iff_ne, ne_eq, ne_eq, Int64.toBitVec_inj]

/-! ### Constructors for integers -/

namespace Build

open Builder

variable {b : Builder} {x y : Term .word}

theorem intOp_runs (hb : b.Consistent) (op : IntOp) (hx : b.HoldsAt w x) (hy : b.HoldsAt w y) :
    Runs (op.build x y) b fun t c =>
      c.MeansWord t (fun ρ => op.bits (x.bits ρ w) (y.bits ρ w)) (x.free ++ y.free) := by
  cases op with
  | add => exact add_runs hb hx hy
  | sub => exact sub_runs hb hx hy
  | mul => exact mul_runs hb hx hy
  | div => exact sdiv_runs hb hx hy
  | rem => exact srem_runs hb hx hy
  | and => exact and_runs hb hx hy
  | or => exact or_runs hb hx hy
  | xor => exact xor_runs hb hx hy
  | shl => exact shift_runs hb hx hy (Or.inl rfl)
  | ashr => exact shift_runs hb hx hy (Or.inr (Or.inr rfl))
  | lshr => exact shift_runs hb hx hy (Or.inr (Or.inl rfl))

theorem intCompare_runs (hb : b.Consistent) (op : IntCompare) (hx : b.HoldsAt w x) (hy : b.HoldsAt w y) :
    Runs (op.build x y) b fun p c =>
      c.MeansCond p (fun ρ => op.bits (x.bits ρ w) (y.bits ρ w)) (x.free ++ y.free) := by
  cases op with
  | lt => exact compare_runs hb .slt hx hy
  | le => exact compare_runs hb .sle hx hy
  | gt => exact compare_runs hb .sgt hx hy
  | ge => exact compare_runs hb .sge hx hy
  | eq => exact compare_runs hb .eq hx hy
  | ne => exact notEqual_runs hb hx hy

end Build
end Pathwise
