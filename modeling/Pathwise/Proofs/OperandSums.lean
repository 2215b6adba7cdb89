import Mathlib.Algebra.BigOperators.Group.List.Basic
import Mathlib.Data.List.Pairwise
import Pathwise.Proofs.TidyBuilders

/-! What operands come to. A sum depends on how often each operand is there, less how often its opposite is; a
product on how often; an exclusive or on whether the number is odd; and the other bit operations on whether it is
there at all. `NaryOp.tally` counts that much, by number, so that operands in any order have one tally, appending
adds tallies, and what the constructors drop does not change them. Reduced operands can be read off their tally.

The constants among the operands are combined apart. Where the result absorbs, nothing else counts: this makes
`NaryOp.Equates`, by which two lists of operands come to the same. -/

namespace Pathwise

open Builder

variable {w : Nat} {b c : Builder}

/-! ### What operands come to -/

/-- The number of a term and its sign: minus a term counts against the term. -/
def Term.signed : Term .word → Nat × Int
  | .unary _ .neg t => (t.id, -1)
  | t => (t.id, 1)

namespace NaryOp

open Term

variable {op : NaryOp} {ts us vs : List (Term .word)} {t u : Term .word}

/-- The constants among the operands, combined. -/
def constant (op : NaryOp) (w : Nat) (ts : List (Term .word)) : BitVec w :=
  op.total ((ts.filterMap const?).map (Word.bits w))

/-- How an operand is counted. Only sums know signs. -/
def entry (op : NaryOp) (t : Term .word) : Nat × Int := if op = .add then t.signed else (t.id, 1)

/-- How often a number is there, less how often minus it is. -/
def sum (op : NaryOp) (ts : List (Term .word)) (i : Nat) : Int :=
  (ts.map fun t => if (op.entry t).1 = i then (op.entry t).2 else 0).sum

/-- How much of the count matters: whether it is odd, or whether it is there at all. -/
def settle : NaryOp → Int → Int
  | .add, n | .mul, n => n
  | .xor, n => n % 2
  | .and, n | .or, n => if 0 < n then 1 else 0

/-- What the operands that are no constants come to, number by number. -/
def tally (op : NaryOp) (ts : List (Term .word)) (i : Nat) : Int := op.settle (op.sum ts i)

/-- Two lists of operands come to the same. What else there is does not matter besides a constant that absorbs. -/
structure Equates (op : NaryOp) (w : Nat) (ts us : List (Term .word)) : Prop where
  constant : op.constant w ts = op.constant w us
  tally : ¬op.Absorbs (op.constant w ts) → op.tally (others ts) = op.tally (others us)

/-! ### Entries -/

theorem signed_cases (t : Term .word) :
    (∃ i u, t = .unary i .neg u ∧ t.signed = (u.id, -1)) ∨ (∀ i u, t ≠ .unary i .neg u) ∧ t.signed = (t.id, 1) := by
  unfold signed
  split
  · exact Or.inl ⟨_, _, rfl, rfl⟩
  · rename_i hnot
    exact Or.inr ⟨fun i u => hnot i u, rfl⟩

theorem entry_of_ne_add (hop : op ≠ .add) (t : Term .word) : op.entry t = (t.id, 1) := if_neg hop

theorem entry_sign (op : NaryOp) (t : Term .word) : (op.entry t).2 = 1 ∨ (op.entry t).2 = -1 := by
  by_cases hop : op = .add
  · subst hop
    rcases signed_cases t with ⟨i, u, -, h⟩ | ⟨-, h⟩
    · exact Or.inr (congrArg Prod.snd h)
    · exact Or.inl (congrArg Prod.snd h)
  · exact Or.inl (congrArg Prod.snd (entry_of_ne_add hop t))

theorem eq_of_signed (hb : b.Consistent) (ht : b.Holds t) (hu : b.Holds u) (h : t.signed = u.signed) : t = u := by
  rcases signed_cases t with ⟨i, t', rfl, hsign⟩ | ⟨-, hsign⟩ <;>
    rcases signed_cases u with ⟨j, u', rfl, hsign'⟩ | ⟨-, hsign'⟩ <;>
    rw [hsign, hsign', Prod.mk.injEq] at h
  · exact hb.shared ht hu (by simp [alike, h.1])
  · exact absurd h.2 (by decide)
  · exact absurd h.2 (by decide)
  · exact hb.eq_of_id ht hu h.1

/-- Held terms are told apart by their entries. -/
theorem eq_of_entry (hb : b.Consistent) (ht : b.Holds t) (hu : b.Holds u) (h : op.entry t = op.entry u) : t = u := by
  unfold entry at h
  split_ifs at h
  · exact eq_of_signed hb ht hu h
  · exact hb.eq_of_id ht hu (congrArg Prod.fst h)

/-- Opposite operands of a sum are counted against each other. -/
theorem signed_of_isOpposite (hb : b.Consistent) (htidy : b.Tidy) (ht : b.Holds t) (hu : b.Holds u)
    (h : t.isOpposite u = true) : t.signed.1 = u.signed.1 ∧ t.signed.2 + u.signed.2 = 0 := by
  have hneg : ∀ {i : Nat} {v v' : Term .word}, b.Holds (.unary i .neg v) → b.Holds v' → v'.id = v.id →
      v'.signed = (v.id, 1) := by
    intro i v v' hv hv' hid
    have heq : v' = v := hb.eq_of_id hv' (hb.children hv) hid
    rcases signed_cases v with ⟨j, v'', hneg, -⟩ | ⟨-, hsign⟩
    · exact absurd hneg ((htidy.term hv).1 j v'')
    · rw [heq, hsign]
  rcases Build.isOpposite_cases h with ⟨i, v, rfl, hid⟩ | ⟨i, v, rfl, hid⟩
  · rw [hneg ht hu hid]
    exact ⟨rfl, rfl⟩
  · rw [hneg hu ht hid]
    exact ⟨rfl, rfl⟩

/-! ### Counting -/

theorem sum_append (op : NaryOp) (ts us : List (Term .word)) (i : Nat) :
    op.sum (ts ++ us) i = op.sum ts i + op.sum us i := by
  rw [sum, List.map_append, List.sum_append]
  rfl

theorem sum_perm (op : NaryOp) (h : ts.Perm us) (i : Nat) : op.sum ts i = op.sum us i := (h.map _).sum_eq

theorem sum_eq_count (op : NaryOp) (ts : List (Term .word)) (i : Nat) :
    op.sum ts i = (ts.map op.entry).count (i, 1) - (ts.map op.entry).count (i, -1) := by
  induction ts with
  | nil => rfl
  | cons t ts ih =>
      have hcons : op.sum (t :: ts) i = (if (op.entry t).1 = i then (op.entry t).2 else 0) + op.sum ts i := rfl
      rw [hcons, ih, List.map_cons, List.count_cons, List.count_cons]
      have hsign := op.entry_sign t
      generalize op.entry t = e at hsign ⊢
      obtain ⟨j, n⟩ := e
      rcases hsign with rfl | rfl <;> by_cases hj : j = i <;> simp [hj] <;> omega

section NotAdd

variable (hop : op ≠ .add)

include hop

/-- Only sums count against. -/
theorem sum_eq_count_id (ts : List (Term .word)) (i : Nat) : op.sum ts i = (ts.map Term.id).count i := by
  induction ts with
  | nil => rfl
  | cons t ts ih =>
      have hcons : op.sum (t :: ts) i = (if (op.entry t).1 = i then (op.entry t).2 else 0) + op.sum ts i := rfl
      rw [hcons, ih, entry_of_ne_add hop, List.map_cons, List.count_cons]
      by_cases hi : t.id = i <;> simp [hi, Int.add_comm]

theorem sum_pos_iff {i : Nat} : 0 < op.sum ts i ↔ ∃ t ∈ ts, t.id = i := by
  rw [sum_eq_count_id hop, Int.natCast_pos, List.count_pos_iff, List.mem_map]

end NotAdd

theorem tally_perm (op : NaryOp) (h : ts.Perm us) : op.tally ts = op.tally us :=
  funext fun i => congrArg op.settle (op.sum_perm h i)

theorem tally_append {ts' us' : List (Term .word)} (h : op.tally ts = op.tally ts') (h' : op.tally us = op.tally us') :
    op.tally (ts ++ us) = op.tally (ts' ++ us') := by
  funext i
  have h := congrFun h i
  have h' := congrFun h' i
  unfold tally at h h' ⊢
  rw [sum_append, sum_append]
  cases op with
  | add =>
      simp only [settle] at h h' ⊢
      rw [h, h']
  | mul =>
      simp only [settle] at h h' ⊢
      rw [h, h']
  | xor =>
      simp only [settle] at h h' ⊢
      omega
  | and =>
      have hcount : ∀ ts, sum .and ts i = (ts.map Term.id).count i := fun ts => sum_eq_count_id (by decide) ts i
      simp only [settle, hcount] at h h' ⊢
      split_ifs at h h' ⊢ <;> omega
  | or =>
      have hcount : ∀ ts, sum .or ts i = (ts.map Term.id).count i := fun ts => sum_eq_count_id (by decide) ts i
      simp only [settle, hcount] at h h' ⊢
      split_ifs at h h' ⊢ <;> omega

/-- Dropping pairs that come to a multiple of `n` changes a sum by one. -/
theorem dvd_sum_cancel {n : Int} {f : Term .word → Int} {related : Term .word → Term .word → Bool}
    (hrel : ∀ t ∈ ts, ∀ u ∈ ts, related t u = true → n ∣ f t + f u) :
    n ∣ (ts.map f).sum - ((cancel related [] ts).map f).sum := by
  obtain ⟨pairs, hpairs, hperm⟩ := exists_pairs_of_cancel related ts
  have hdvd : n ∣ ((pairs.flatMap fun q => [q.1, q.2]).map f).sum := by
    clear hperm
    induction pairs with
    | nil => exact dvd_zero n
    | cons q pairs ih =>
        rw [List.forall_mem_cons] at hpairs
        obtain ⟨⟨ht, hu, hrelated⟩, hpairs⟩ := hpairs
        rw [List.flatMap_cons, List.map_append, List.sum_append]
        refine Int.dvd_add ?_ (ih hpairs)
        simpa using hrel q.1 ht q.2 hu hrelated
  rwa [(hperm.map f).sum_eq, List.map_append, List.sum_append, Int.add_sub_cancel]

/-- Reducing the operands keeps what they come to. -/
theorem tally_reduce (hb : b.Consistent) (htidy : b.Tidy) (op : NaryOp) (hts : ∀ t ∈ ts, b.Holds t) :
    op.tally (op.reduce ts) = op.tally ts := by
  funext i
  have hdedup : ∀ t, t ∈ dedup ts ↔ t ∈ ts := fun t =>
    mem_dedup fun t ht u hu h => hb.eq_of_id (hts t ht) (hts u hu) h
  have hpos : ∀ op : NaryOp, op ≠ .add → (0 < op.sum (dedup ts) i ↔ 0 < op.sum ts i) := fun op hop => by
    rw [sum_pos_iff hop, sum_pos_iff hop]
    simp only [hdedup]
  cases op with
  | mul => rfl
  | and => exact if_congr (hpos .and (by decide)) rfl rfl
  | or => exact if_congr (hpos .or (by decide)) rfl rfl
  | add =>
      have hdvd : (0 : Int) ∣ add.sum ts i - add.sum (cancel isOpposite [] ts) i := by
        refine dvd_sum_cancel fun t ht u hu h => ?_
        obtain ⟨hid, hsign⟩ := signed_of_isOpposite hb htidy (hts t ht) (hts u hu) h
        change (0 : Int) ∣ (if t.signed.1 = i then t.signed.2 else 0) + if u.signed.1 = i then u.signed.2 else 0
        rw [hid]
        split_ifs
        · rw [hsign]
        · exact dvd_rfl
      have heq := zero_dvd_iff.mp hdvd
      change add.sum (cancel isOpposite [] ts) i = add.sum ts i
      omega
  | xor =>
      have hdvd : (2 : Int) ∣ xor.sum ts i - xor.sum (cancel (fun t u => t.id == u.id) [] ts) i := by
        refine dvd_sum_cancel fun t _ u _ h => ?_
        change (2 : Int) ∣ (if t.id = i then 1 else 0) + if u.id = i then 1 else 0
        rw [beq_iff_eq.mp h]
        split_ifs
        · decide
        · decide
      change xor.sum (cancel (fun t u => t.id == u.id) [] ts) i % 2 = xor.sum ts i % 2
      omega

/-! ### Reduced operands -/

/-- Of a number and minus it, reduced operands of a sum have at most one. -/
theorem not_both_of_pairwise (hapart : ts.Pairwise fun t u => isOpposite t u = false) (i : Nat) :
    (ts.map signed).count (i, 1) = 0 ∨ (ts.map signed).count (i, -1) = 0 := by
  rw [List.count_eq_zero, List.count_eq_zero, ← not_and_or, List.mem_map, List.mem_map]
  rintro ⟨⟨t, ht, hpos⟩, u, hu, hneg⟩
  rcases signed_cases t with ⟨j, t', rfl, hsign⟩ | ⟨hnot, hsign⟩
  · cases hpos.symm.trans hsign
  rcases signed_cases u with ⟨j, u', rfl, hsign'⟩ | ⟨-, hsign'⟩
  · cases hpos.symm.trans hsign
    have hid : u'.id = t.id := (congrArg Prod.fst (hneg.symm.trans hsign')).symm
    have hopp : isOpposite t (.unary j .neg u') = true := by simp [isOpposite, hid]
    have hsymm : Std.Symm fun t u : Term .word => isOpposite t u = false :=
      ⟨fun t u h => (clash_comm .add u t).trans h⟩
    rw [hapart.forall ht hu (hnot j u')] at hopp
    cases hopp
  · cases hneg.symm.trans hsign'

/-- Among reduced operands nothing is left to be settled. -/
theorem count_entry_of_pairwise (hapart : ts.Pairwise fun t u => op.clash t u = false) (i : Nat) :
    ((ts.map op.entry).count (i, 1) : Int) = max (op.tally ts i) 0 ∧
      ((ts.map op.entry).count (i, -1) : Int) = max (-op.tally ts i) 0 := by
  have hsum := op.sum_eq_count ts i
  have hneg : op ≠ .add → (ts.map op.entry).count (i, -1) = 0 := fun hop => by
    rw [List.count_eq_zero, List.mem_map]
    rintro ⟨t, -, ht⟩
    cases (entry_of_ne_add hop t).symm.trans ht
  have hone : (∀ t u, op.clash t u = (t.id == u.id)) → op ≠ .add → (ts.map op.entry).count (i, 1) ≤ 1 :=
    fun hclash hop => by
      refine List.nodup_iff_count_le_one.mp (List.pairwise_map.mpr (hapart.imp fun {t u} h heq => ?_)) (i, 1)
      rw [entry_of_ne_add hop, entry_of_ne_add hop, Prod.mk.injEq] at heq
      rw [hclash, heq.1, beq_self_eq_true] at h
      cases h
  unfold tally
  cases op with
  | add =>
      have hboth : (ts.map add.entry).count (i, 1) = 0 ∨ (ts.map add.entry).count (i, -1) = 0 :=
        not_both_of_pairwise hapart i
      simp only [settle]
      omega
  | mul =>
      have hneg := hneg (by decide)
      simp only [settle]
      omega
  | xor =>
      have hneg := hneg (by decide)
      have hone := hone (fun _ _ => rfl) (by decide)
      simp only [settle]
      omega
  | and =>
      have hneg := hneg (by decide)
      have hone := hone (fun _ _ => rfl) (by decide)
      simp only [settle]
      split_ifs <;> omega
  | or =>
      have hneg := hneg (by decide)
      have hone := hone (fun _ _ => rfl) (by decide)
      simp only [settle]
      split_ifs <;> omega

/-- Reduced operands that come to the same are the same, in some order. -/
theorem perm_of_tally (hb : b.Consistent) (hts : ∀ t ∈ ts, b.Holds t) (hus : ∀ u ∈ us, b.Holds u)
    (hapart : ts.Pairwise fun t u => op.clash t u = false) (hapart' : us.Pairwise fun t u => op.clash t u = false)
    (h : op.tally ts = op.tally us) : ts.Perm us := by
  classical
  have hentry : ∀ t, b.Holds t → (ts.map op.entry).count (op.entry t) = (us.map op.entry).count (op.entry t) := by
    intro t _
    have hcount := count_entry_of_pairwise hapart (op.entry t).1
    have hcount' := count_entry_of_pairwise hapart' (op.entry t).1
    rw [← h] at hcount'
    have hsign := op.entry_sign t
    generalize op.entry t = e at hsign hcount hcount' ⊢
    obtain ⟨j, n⟩ := e
    dsimp only at hsign hcount hcount'
    rcases hsign with rfl | rfl
    · omega
    · omega
  have hcount : ∀ {vs : List (Term .word)}, (∀ v ∈ vs, b.Holds v) → ∀ t, b.Holds t →
      vs.count t = (vs.map op.entry).count (op.entry t) := by
    intro vs hvs t ht
    rw [List.count, List.count, List.countP_map]
    refine List.countP_congr fun v hv => ?_
    rw [beq_iff_eq, Function.comp_apply, beq_iff_eq]
    exact ⟨fun heq => by rw [heq], fun heq => eq_of_entry hb (hvs v hv) ht heq⟩
  refine List.perm_iff_count.mpr fun t => ?_
  by_cases ht : b.Holds t
  · rw [hcount hts t ht, hcount hus t ht, hentry t ht]
  · rw [List.count_eq_zero.mpr fun hmem => ht (hts t hmem), List.count_eq_zero.mpr fun hmem => ht (hus t hmem)]

/-! ### Constants -/

/-- Where there are bits, what absorbs is not what changes nothing. -/
theorem not_absorbs_neutral (hw : 0 < w) (op : NaryOp) : ¬op.Absorbs (op.neutral w) := by
  have hones : BitVec.allOnes w ≠ 0#w := fun h => by
    have hbits := congrArg BitVec.toNat h
    rw [BitVec.toNat_allOnes, BitVec.toNat_zero] at hbits
    have := Nat.one_lt_two_pow hw.ne'
    omega
  have hone : 1#w ≠ 0#w := fun h => by
    have hbits := congrArg BitVec.toNat h
    rw [BitVec.toNat_ofNat, BitVec.toNat_ofNat, Nat.mod_eq_of_lt (Nat.one_lt_two_pow hw.ne')] at hbits
    simp at hbits
  cases op with
  | mul => exact hone
  | and => exact hones
  | or => exact hones.symm
  | add => exact not_false
  | xor => exact not_false

theorem constant_append (op : NaryOp) (w : Nat) (ts us : List (Term .word)) :
    op.constant w (ts ++ us) = op.bits (op.constant w ts) (op.constant w us) := by
  rw [constant, List.filterMap_append, List.map_append, total_append]
  rfl

theorem constant_perm (op : NaryOp) (w : Nat) (h : ts.Perm us) : op.constant w ts = op.constant w us :=
  op.total_perm ((h.filterMap _).map _)

theorem constant_of_forall (op : NaryOp) (w : Nat) (h : ∀ t ∈ ts, t.isConst = false) :
    op.constant w ts = op.neutral w := by
  have hnone : ts.filterMap const? = [] := List.filterMap_eq_nil_iff.mpr fun t ht => const?_eq_none_iff.mpr (h t ht)
  rw [constant, hnone]
  rfl

theorem constant_singleton (op : NaryOp) (w : Nat) {a : Word} (h : t.const? = some a) :
    op.constant w [t] = a.bits w := by
  rw [constant, List.filterMap_cons, h]
  exact op.bits_neutral _

theorem others_append (ts us : List (Term .word)) : others (ts ++ us) = others ts ++ others us := List.filter_append ..

theorem others_of_forall (h : ∀ t ∈ ts, t.isConst = false) : others ts = ts :=
  List.filter_eq_self.mpr fun t ht => by rw [h t ht]; rfl

theorem others_singleton {a : Word} (h : t.const? = some a) : others [t] = [] := by
  rw [eq_const_of_const? h]
  rfl

theorem bits_foldConsts (op : NaryOp) (w : Nat) (ts : List (Term .word)) :
    (foldConsts op (op.unit w) ts).1.bits w = op.constant w ts := by
  suffices h : ∀ acc : Word, acc.width = w →
      (foldConsts op acc ts).1.bits w = op.bits (acc.bits w) (op.constant w ts) by
    rw [h _ (op.width_unit w), op.bits_unit, op.neutral_bits]
  induction ts with
  | nil => exact fun acc _ => (op.bits_neutral _).symm
  | cons t ts ih =>
      intro acc hacc
      rw [foldConsts, ← List.singleton_append, constant_append]
      cases hc : t.const? with
      | some a =>
          dsimp only
          rw [ih _ ((op.width_apply acc a).trans hacc), op.bits_apply hacc, constant_singleton op w hc, op.bits_assoc]
      | none =>
          have hnone : op.constant w [t] = op.neutral w :=
            op.constant_of_forall w (List.forall_mem_singleton.mpr (const?_eq_none_iff.mp hc))
          rw [hnone, op.neutral_bits]
          exact ih acc hacc

/-! ### Operands that come to the same -/

namespace Equates

theorem refl (op : NaryOp) (w : Nat) (ts : List (Term .word)) : op.Equates w ts ts := ⟨rfl, fun _ => rfl⟩

theorem symm (h : op.Equates w ts us) : op.Equates w us ts :=
  ⟨h.constant.symm, fun hnot => (h.tally (h.constant ▸ hnot)).symm⟩

theorem trans (h : op.Equates w ts us) (h' : op.Equates w us vs) : op.Equates w ts vs :=
  ⟨h.constant.trans h'.constant, fun hnot => (h.tally hnot).trans (h'.tally (h.constant ▸ hnot))⟩

instance : Trans (op.Equates w) (op.Equates w) (op.Equates w) := ⟨Equates.trans⟩

theorem of_perm (op : NaryOp) (w : Nat) (h : ts.Perm us) : op.Equates w ts us :=
  ⟨op.constant_perm w h, fun _ => op.tally_perm (h.filter _)⟩

theorem append {ts' us' : List (Term .word)} (h : op.Equates w ts ts') (h' : op.Equates w us us') :
    op.Equates w (ts ++ us) (ts' ++ us') := by
  refine ⟨?_, fun hnot => ?_⟩
  · rw [constant_append, constant_append, h.constant, h'.constant]
  · rw [constant_append] at hnot
    rw [others_append, others_append]
    refine tally_append (h.tally fun habs => hnot ?_) (h'.tally fun habs => hnot ?_)
    · rwa [bits_of_absorbs habs]
    · rwa [op.bits_comm, bits_of_absorbs habs]

/-- A constant that changes nothing may stand by. -/
theorem unit_append {a : Word} (ha : t.const? = some a) (hneutral : a.bits w = op.neutral w) (ts : List (Term .word)) :
    op.Equates w ts ([t] ++ ts) := by
  refine ⟨?_, fun _ => ?_⟩
  · rw [constant_append, op.constant_singleton w ha, hneutral, op.neutral_bits]
  · rw [others_append, others_singleton ha, List.nil_append]

/-- Beside a constant that absorbs anything may stand. -/
theorem absorb_append {a : Word} (ha : t.const? = some a) (habsorbs : op.Absorbs (a.bits w))
    (ts : List (Term .word)) : op.Equates w [t] ([t] ++ ts) := by
  refine ⟨?_, fun hnot => ?_⟩
  · rw [constant_append, op.constant_singleton w ha, bits_of_absorbs habsorbs]
  · rw [op.constant_singleton w ha] at hnot
    exact absurd habsorbs hnot

end Equates

/-- Operands of a bit operation, once more. -/
theorem bits_self (hop : op = .and ∨ op = .or) (v : BitVec w) : op.bits v v = v := by
  rcases hop with rfl | rfl
  · exact BitVec.and_self
  · exact BitVec.or_self

theorem tally_eq_of_mem_iff (hop : op = .and ∨ op = .or) (h : ∀ t, t ∈ ts ↔ t ∈ us) : op.tally ts = op.tally us := by
  funext i
  have hpos : 0 < op.sum ts i ↔ 0 < op.sum us i := by
    have hne : op ≠ .add := by rcases hop with rfl | rfl <;> decide
    rw [sum_pos_iff hne, sum_pos_iff hne]
    simp only [h]
  rcases hop with rfl | rfl <;> exact if_congr hpos rfl rfl

/-- Where repetitions change nothing, only which operands there are counts. -/
theorem Equates.of_mem_iff (hop : op = .and ∨ op = .or) (h : ∀ t, t ∈ ts ↔ t ∈ us) : op.Equates w ts us := by
  refine ⟨total_congr (bits_self hop) fun v => ?_, fun _ => tally_eq_of_mem_iff hop fun t => ?_⟩
  · simp only [List.mem_map, List.mem_filterMap, h]
  · rw [mem_others, mem_others, h]

end NaryOp

end Pathwise
