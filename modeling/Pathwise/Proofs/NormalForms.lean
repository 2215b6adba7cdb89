import Pathwise.Proofs.Substitution

/-! Normal forms. No rule of its constructor applies to an interned node (`Term.Tidy`): a sum has two or more
operands in the order of their numbers, none of them a sum itself, at most one of them a constant, and no two of
them opposite; products, bit operations and junctions likewise; a sign stands before no constant, no sum and no
other sign.

The constructors of sums, products and bit operations first try a few rules on their two operands and then flatten
them. `NaryOp.Rule` says once, for all five, which rules there are. -/

namespace Pathwise

open Builder

/-! ### Tidy nodes -/

namespace NaryOp

variable {w : Nat}

/-- The vectors that decide the result whatever else goes into it. -/
def Absorbs : NaryOp → BitVec w → Prop
  | .mul, v | .and, v => v = 0#w
  | .or, v => v = BitVec.allOnes w
  | .add, _ | .xor, _ => False

instance (op : NaryOp) (v : BitVec w) : Decidable (op.Absorbs v) :=
  match op with
  | .mul | .and => inferInstanceAs (Decidable (v = 0#w))
  | .or => inferInstanceAs (Decidable (v = BitVec.allOnes w))
  | .add | .xor => inferInstanceAs (Decidable False)

theorem bits_of_absorbs {op : NaryOp} {v : BitVec w} (h : op.Absorbs v) (u : BitVec w) : op.bits v u = v := by
  cases op with
  | mul => rw [show v = 0#w from h]; exact BitVec.zero_mul
  | and => rw [show v = 0#w from h]; exact BitVec.zero_and
  | or => rw [show v = BitVec.allOnes w from h]; exact BitVec.allOnes_or
  | add => exact h.elim
  | xor => exact h.elim

/-- Where the vector that changes nothing absorbs there is no other. -/
theorem absorbs_of_neutral {op : NaryOp} (h : op.Absorbs (op.neutral w)) (v : BitVec w) : op.Absorbs v := by
  rwa [← op.neutral_bits v, bits_of_absorbs h]

/-- Operands that do not stand side by side: opposites in a sum, equals in a bit operation. -/
def clash : NaryOp → Term .word → Term .word → Bool
  | .add => Term.isOpposite
  | .and | .or | .xor => fun t u => t.id == u.id
  | .mul => fun _ _ => false

end NaryOp

namespace Term

/-- The operands that are no constants. -/
def others (ts : List (Term .word)) : List (Term .word) := ts.filter (!·.isConst)

end Term

/-- The operands of a node with many operands. They have bits: where all words absorb there is no such node. -/
structure NaryOp.Reduced (op : NaryOp) (args : List (Term .word)) : Prop where
  many : 2 ≤ args.length
  sorted : args.Pairwise fun t u => t.id ≤ u.id
  flat : ∀ t ∈ args, t.parts op = [t]
  single : args.Pairwise fun t u => t.isConst = false ∨ u.isConst = false
  constant : ∀ t ∈ args, ∀ c, t.const? = some c → c ≠ op.unit c.width ∧ ¬op.Absorbs (c.bits c.width)
  apart : (Term.others args).Pairwise fun t u => op.clash t u = false
  bits : ∀ t ∈ args, ¬op.Absorbs (op.neutral t.width)

namespace Term

/-- No rule of the node's constructor applies to it. -/
def Tidy {k : Ty} : Term k → Prop
  | .symbol .. | .const .. | .truth .. => True
  | .ite _ _ yes no => yes.id ≠ no.id
  | .unary _ .not arg => ∀ i t, arg ≠ .unary i .not t
  | .unary _ .neg arg => (∀ i t, arg ≠ .unary i .neg t) ∧ ∀ i ts, arg ≠ .nary i .add ts
  | .binary _ .sdiv _ right => right.isOne = false
  | .binary _ .srem left right => left.id ≠ right.id ∧ right.isOne = false
  | .binary _ op left right =>
    ∀ c, right.const? = some c → c.isZero = false ∧ ¬(left.width ≤ c.value ∧ op ≠ .ashr)
  | .nary _ op args => op.Reduced args
  | .not _ arg => (∀ i p, arg ≠ .not i p) ∧ (∀ i op ps, arg ≠ .junction i op ps) ∧
    ∀ i op x y, arg = .compare i op x y → op.opposite? = none
  | .compare _ _ left right => left.id ≠ right.id
  | .junction _ op args =>
    2 ≤ args.length ∧ args.Pairwise (fun p q => p.id < q.id) ∧ ∀ p ∈ args, p.condParts op = [p]

theorem tidy_withId {k : Ty} (n : Nat) (t : Term k) : (t.withId n).Tidy ↔ t.Tidy := by
  cases t with
  | unary i op arg => cases op <;> rfl
  | binary i op left right => cases op <;> rfl
  | _ => rfl

end Term

/-- Every interned term is tidy. -/
structure Builder.Tidy (b : Builder) : Prop where
  term : ∀ {k : Ty} {t : Term k}, b.Holds t → t.Tidy

theorem Builder.tidy_empty {scatter : List Nat → Nat} : ({ scatter } : Builder).Tidy :=
  ⟨fun h => absurd h (not_holds_empty _)⟩

theorem Builder.Tidy.of_sameTable {b c : Builder} (h : b.SameTable c) (hc : c.Tidy) : b.Tidy :=
  ⟨fun ht => hc.term (h.holds_iff.mp ht)⟩

/-! ### Lists of operands -/

namespace Term

variable {k : Ty} {w : Nat} {related : Term .word → Term .word → Bool} {ts waiting : List (Term .word)}

theorem insertById_sorted (t : Term k) {us : List (Term k)} (h : us.Pairwise fun t u => t.id ≤ u.id) :
    (insertById t us).Pairwise fun t u => t.id ≤ u.id := by
  induction us with
  | nil => exact List.pairwise_singleton _ _
  | cons u us ih =>
      obtain ⟨hhead, htail⟩ := List.pairwise_cons.mp h
      rw [insertById]
      split_ifs with hle
      · refine List.pairwise_cons.mpr ⟨fun v hv => ?_, h⟩
        rcases List.mem_cons.mp hv with rfl | hv
        · exact hle
        · exact hle.trans (hhead v hv)
      · refine List.pairwise_cons.mpr ⟨fun v hv => ?_, ih htail⟩
        rcases List.mem_cons.mp ((insertById_perm t us).mem_iff.mp hv) with rfl | hv
        · omega
        · exact hhead v hv

theorem sortById_sorted (us : List (Term k)) : (sortById us).Pairwise fun t u => t.id ≤ u.id := by
  induction us with
  | nil => exact List.Pairwise.nil
  | cons t us ih => exact insertById_sorted t ih

/-- What is left after cancelling has no related pair. -/
theorem cancel_pairwise (h : waiting.Pairwise fun t u => related t u = false) :
    (cancel related waiting ts).Pairwise fun t u => related t u = false := by
  induction ts generalizing waiting with
  | nil => exact h
  | cons t ts ih =>
      rw [cancel]
      split_ifs with hany
      · exact ih (h.sublist List.eraseP_sublist)
      · refine ih (List.pairwise_append.mpr ⟨h, List.pairwise_singleton _ _, fun u hu v hv => ?_⟩)
        rw [List.mem_singleton.mp hv, ← Bool.not_eq_true]
        exact fun hrel => hany (List.any_eq_true.mpr ⟨u, hu, hrel⟩)

theorem dedup_pairwise (us : List (Term k)) : (dedup us).Pairwise fun t u => t.id ≠ u.id := by
  induction us with
  | nil => exact List.Pairwise.nil
  | cons t us ih =>
      rw [dedup]
      split_ifs with hany
      · exact ih
      · refine List.pairwise_cons.mpr ⟨fun u hu hid => hany ?_, ih⟩
        exact List.any_eq_true.mpr ⟨u, mem_of_mem_dedup hu, beq_iff_eq.mpr hid.symm⟩

theorem snd_foldConsts (op : NaryOp) (acc : Word) (ts : List (Term .word)) : (foldConsts op acc ts).2 = others ts := by
  induction ts generalizing acc with
  | nil => rfl
  | cons t ts ih =>
      rw [foldConsts, others, List.filter_cons]
      cases hc : t.const? with
      | some c =>
          have hconst : t.isConst = true := by rw [eq_const_of_const? hc]; rfl
          rw [hconst]
          exact ih _
      | none =>
          rw [const?_eq_none_iff.mp hc]
          exact congrArg (t :: ·) (ih acc)

theorem mem_others {t : Term .word} : t ∈ others ts ↔ t ∈ ts ∧ t.isConst = false := by
  rw [others, List.mem_filter, Bool.not_eq_true']

end Term

namespace NaryOp

open Term

/-- What is done with the operands that are no constants. -/
def reduce : NaryOp → List (Term .word) → List (Term .word)
  | .add => cancel isOpposite []
  | .xor => cancel (fun t u => t.id == u.id) []
  | .and | .or => dedup
  | .mul => id

variable {op : NaryOp} {ts : List (Term .word)} {t u : Term .word}

theorem mem_of_mem_reduce (h : t ∈ op.reduce ts) : t ∈ ts := by
  cases op with
  | and => exact mem_of_mem_dedup h
  | or => exact mem_of_mem_dedup h
  | xor => exact mem_of_mem_cancel h
  | add => exact mem_of_mem_cancel h
  | mul => exact h

theorem reduce_pairwise (op : NaryOp) (ts : List (Term .word)) :
    (op.reduce ts).Pairwise fun t u => op.clash t u = false := by
  cases op with
  | and => exact (dedup_pairwise ts).imp fun h => beq_false_of_ne h
  | or => exact (dedup_pairwise ts).imp fun h => beq_false_of_ne h
  | xor => exact cancel_pairwise List.Pairwise.nil
  | add => exact cancel_pairwise List.Pairwise.nil
  | mul => exact List.pairwise_of_forall fun _ _ => rfl

theorem clash_comm (op : NaryOp) (t u : Term .word) : op.clash t u = op.clash u t := by
  cases op with
  | add => exact Bool.or_comm _ _
  | mul => rfl
  | _ => exact Bool.beq_comm

end NaryOp

/-! ### The rules of a constructor with many operands -/

namespace Build

open Term

variable {w : Nat} {b : Builder} {x y : Term .word}

/-- The last rule: the constants among the operands are folded, and the others are reduced. -/
def combine (op : NaryOp) (w : Nat) (ts : List (Term .word)) : Build (Term .word) :=
  let c := (foldConsts op (op.unit w) ts).1
  if op.Absorbs (c.bits w) then const c else collectWith op w c (op.reduce (others ts))

end Build

/-- The rules by which two operands are combined. -/
inductive NaryOp.Rule (op : NaryOp) (w : Nat) (x y : Term .word) : Build (Term .word) → Prop where
  | unitLeft {c : Word} (hx : x.const? = some c) (hc : c.bits w = op.neutral w) : Rule op w x y (pure y)
  | unitRight {c : Word} (hy : y.const? = some c) (hc : c.bits w = op.neutral w) : Rule op w x y (pure x)
  | absorbLeft {c : Word} (hx : x.const? = some c) (hc : op.Absorbs (c.bits w)) : Rule op w x y (pure x)
  | absorbRight {c : Word} (hy : y.const? = some c) (hc : op.Absorbs (c.bits w)) : Rule op w x y (pure y)
  | same (hop : op = .and ∨ op = .or) (h : x.id = y.id) : Rule op w x y (pure x)
  | clash (hop : op = .add ∨ op = .xor) (h : op.clash x y = true) : Rule op w x y (Build.const (op.unit w))
  | constants {c c' : Word} (hx : x.const? = some c) (hy : y.const? = some c') :
      Rule op w x y (Build.const (op.apply c c'))
  | combine : Rule op w x y (Build.combine op w (x.parts op ++ y.parts op))

namespace Build

open Term

variable {w : Nat} {b : Builder} {x y : Term .word}

theorem exists_of_isZero (hx : x.width = w) (h : x.isZero = true) : ∃ c, x.const? = some c ∧ c.bits w = 0#w := by
  obtain ⟨c, hc, hzero⟩ := (Option.any_eq_true _ _).mp h
  exact ⟨c, hc, (Word.isZero_iff ((width_of_const? hc).trans hx)).mp hzero⟩

theorem exists_of_isOnes (hx : x.width = w) (h : x.isOnes = true) :
    ∃ c, x.const? = some c ∧ c.bits w = BitVec.allOnes w := by
  obtain ⟨c, hc, hones⟩ := (Option.any_eq_true _ _).mp h
  exact ⟨c, hc, (Word.isOnes_iff ((width_of_const? hc).trans hx)).mp hones⟩

theorem exists_of_isOne (h : x.isOne = true) : ∃ c, x.const? = some c ∧ c.bits w = 1#w := by
  obtain ⟨c, hc, hone⟩ := (Option.any_eq_true _ _).mp h
  exact ⟨c, hc, Word.bits_of_isOne hone⟩

theorem eq_of_bits {c c' : Word} (hc : c.width = w) (hc' : c'.width = w) (h : c.bits w = c'.bits w) : c = c' :=
  (Word.eq_ofNat_bits hc h).trans (Word.eq_ofNat_bits hc' rfl).symm

theorem width_fst_foldConsts (op : NaryOp) (w : Nat) (ts : List (Term .word)) :
    (foldConsts op (op.unit w) ts).1.width = w := by
  rw [width_foldConsts, op.width_unit]

section Folded

variable {op : NaryOp}

theorem rule_collect
    (h : ¬op.Absorbs ((foldConsts op (op.unit w) (x.parts op ++ y.parts op)).1.bits w)) :
    op.Rule w x y (collectWith op w (foldConsts op (op.unit w) (x.parts op ++ y.parts op)).1
      (op.reduce (foldConsts op (op.unit w) (x.parts op ++ y.parts op)).2)) := by
  have hcombine : op.Rule w x y (combine op w (x.parts op ++ y.parts op)) := .combine
  rwa [combine, if_neg h, ← snd_foldConsts op (op.unit w)] at hcombine

theorem rule_absorb {c : Word} (hwidth : c.width = w)
    (hc : (foldConsts op (op.unit w) (x.parts op ++ y.parts op)).1.bits w = c.bits w) (h : op.Absorbs (c.bits w)) :
    op.Rule w x y (const c) := by
  have hcombine : op.Rule w x y (combine op w (x.parts op ++ y.parts op)) := .combine
  rw [← hc] at h
  rwa [combine, if_pos h, eq_of_bits (width_fst_foldConsts op w _) hwidth hc] at hcombine

end Folded

/-- Every combination is an instance of one of the rules. -/
theorem nary_rule (hx : x.width = w) (hy : y.width = w) (op : NaryOp) : op.Rule w x y (nary op x y) := by
  subst hx
  have hwidth := fun op => width_fst_foldConsts op x.width (x.parts op ++ y.parts op)
  cases op with
  | add =>
      unfold nary MonadTerms.nary MonadTerms.add
      dsimp only
      split
      · rename_i c c' hc hc'
        exact .constants hc hc'
      · split_ifs with hzero hzero' hopp
        · obtain ⟨c, hc, hbits⟩ := exists_of_isZero rfl hzero
          exact .unitLeft hc hbits
        · obtain ⟨c, hc, hbits⟩ := exists_of_isZero hy hzero'
          exact .unitRight hc hbits
        · exact .clash (Or.inl rfl) hopp
        · exact rule_collect not_false
  | mul =>
      unfold nary MonadTerms.nary MonadTerms.mul
      dsimp only
      split_ifs with hone hone' hzero hzero' hfolded
      · obtain ⟨c, hc, hbits⟩ := exists_of_isOne hone
        exact .unitLeft hc hbits
      · obtain ⟨c, hc, hbits⟩ := exists_of_isOne hone'
        exact .unitRight hc hbits
      · obtain ⟨c, hc, hbits⟩ := exists_of_isZero rfl hzero
        exact .absorbLeft hc hbits
      · obtain ⟨c, hc, hbits⟩ := exists_of_isZero hy hzero'
        exact .absorbRight hc hbits
      · have hbits := (Word.isZero_iff (hwidth .mul)).mp hfolded
        exact rule_absorb (Word.width_zero _) (hbits.trans (Word.bits_zero _).symm) (Word.bits_zero _)
      · exact rule_collect fun hbits => hfolded ((Word.isZero_iff (hwidth .mul)).mpr hbits)
  | and =>
      unfold nary MonadTerms.nary MonadTerms.and
      dsimp only
      split_ifs with hzero hzero' hones hones' hsame hfolded
      · obtain ⟨c, hc, hbits⟩ := exists_of_isZero rfl hzero
        exact .absorbLeft hc hbits
      · obtain ⟨c, hc, hbits⟩ := exists_of_isZero hy hzero'
        exact .absorbRight hc hbits
      · obtain ⟨c, hc, hbits⟩ := exists_of_isOnes rfl hones
        exact .unitLeft hc hbits
      · obtain ⟨c, hc, hbits⟩ := exists_of_isOnes hy hones'
        exact .unitRight hc hbits
      · exact .same (Or.inl rfl) hsame
      · have hbits := (Word.isZero_iff (hwidth .and)).mp hfolded
        exact rule_absorb (Word.width_zero _) (hbits.trans (Word.bits_zero _).symm) (Word.bits_zero _)
      · exact rule_collect fun hbits => hfolded ((Word.isZero_iff (hwidth .and)).mpr hbits)
  | or =>
      unfold nary MonadTerms.nary MonadTerms.or
      dsimp only
      split_ifs with hzero hzero' hones hones' hsame hfolded
      · obtain ⟨c, hc, hbits⟩ := exists_of_isZero rfl hzero
        exact .unitLeft hc hbits
      · obtain ⟨c, hc, hbits⟩ := exists_of_isZero hy hzero'
        exact .unitRight hc hbits
      · obtain ⟨c, hc, hbits⟩ := exists_of_isOnes rfl hones
        exact .absorbLeft hc hbits
      · obtain ⟨c, hc, hbits⟩ := exists_of_isOnes hy hones'
        exact .absorbRight hc hbits
      · exact .same (Or.inr rfl) hsame
      · have hbits := (Word.isOnes_iff (hwidth .or)).mp hfolded
        exact rule_absorb (Word.width_ones _) (hbits.trans (Word.bits_ones _).symm) (Word.bits_ones _)
      · exact rule_collect fun hbits => hfolded ((Word.isOnes_iff (hwidth .or)).mpr hbits)
  | xor =>
      unfold nary MonadTerms.nary MonadTerms.xor
      dsimp only
      split_ifs with hzero hzero' hsame
      · obtain ⟨c, hc, hbits⟩ := exists_of_isZero rfl hzero
        exact .unitLeft hc hbits
      · obtain ⟨c, hc, hbits⟩ := exists_of_isZero hy hzero'
        exact .unitRight hc hbits
      · exact .clash (Or.inr rfl) (beq_iff_eq.mpr hsame)
      · exact rule_collect not_false

end Build
end Pathwise
