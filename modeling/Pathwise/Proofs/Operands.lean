import Pathwise.Proofs.Interning
import Pathwise.Term.Simplify

/-! Lists of operands on their way through a constructor. The constructors flatten their operands,
fold the constants among them, drop operands that cancel or repeat, and sort the rest. Each of these
steps keeps what the operands come to together, and none of them brings in a new operand. -/

namespace Pathwise

variable {w : Nat}

/-! ### Operators on words and on vectors -/

namespace NaryOp

@[simp] theorem width_apply (op : NaryOp) (a b : Word) : (op.apply a b).width = a.width := by
  cases op <;> rfl

@[simp] theorem width_unit (op : NaryOp) (w : Nat) : (op.unit w).width = w := by
  cases op <;> rfl

theorem bits_apply (op : NaryOp) {a b : Word} (ha : a.width = w) :
    (op.apply a b).bits w = op.bits (a.bits w) (b.bits w) := by
  cases op with
  | and => exact Word.bits_and ha
  | or => exact Word.bits_or ha
  | xor => exact Word.bits_xor ha
  | add => exact Word.bits_add ha
  | mul => exact Word.bits_mul ha

@[simp] theorem bits_unit (op : NaryOp) (w : Nat) : (op.unit w).bits w = op.neutral w := by
  cases op with
  | and => exact Word.bits_ones w
  | or => exact Word.bits_zero w
  | xor => exact Word.bits_zero w
  | add => exact Word.bits_zero w
  | mul => exact Word.bits_one w

/-- What is among the vectors already changes nothing when it is combined with them once more. -/
theorem bits_total_of_mem {op : NaryOp} (hidem : ∀ x : BitVec w, op.bits x x = x) {x : BitVec w}
    {xs : List (BitVec w)} (h : x ∈ xs) : op.bits x (op.total xs) = op.total xs := by
  induction xs with
  | nil => cases h
  | cons y ys ih =>
      rw [total_cons]
      rcases List.mem_cons.mp h with rfl | hmem
      · rw [← bits_assoc, hidem]
      · rw [bits_left_comm, ih hmem]

/-- Where repetitions change nothing, only which vectors occur counts. -/
theorem total_congr {op : NaryOp} (hidem : ∀ x : BitVec w, op.bits x x = x) {xs ys : List (BitVec w)}
    (h : ∀ x, x ∈ xs ↔ x ∈ ys) : op.total xs = op.total ys := by
  have absorb : ∀ {us vs : List (BitVec w)}, (∀ x ∈ us, x ∈ vs) →
      op.bits (op.total us) (op.total vs) = op.total vs := by
    intro us vs hsub
    induction us with
    | nil => simp
    | cons u us ih =>
        rw [List.forall_mem_cons] at hsub
        rw [total_cons, bits_assoc, ih hsub.2, bits_total_of_mem hidem hsub.1]
  rw [← absorb fun x hx => (h x).mp hx, bits_comm, absorb fun x hx => (h x).mpr hx]

end NaryOp

namespace Term

variable {k : Ty}

/-! ### Constants among the operands -/

theorem const?_eq_none_iff {t : Term .word} : t.const? = none ↔ t.isConst = false := by
  cases t <;> simp [const?, isConst]

theorem truth?_eq_none_iff {p : Cond} : p.truth? = none ↔ p.isConst = false := by
  cases p <;> simp [truth?, isConst]

theorem eq_const_of_const? {t : Term .word} {c : Word} (h : t.const? = some c) : t = .const t.id c := by
  cases t <;> simp_all [const?, id]

theorem eq_truth_of_truth? {p : Cond} {v : Bool} (h : p.truth? = some v) : p = .truth p.id v := by
  cases p <;> simp_all [truth?, id]

theorem bits_of_const? {t : Term .word} {c : Word} (h : t.const? = some c) (ρ : Valuation) (w : Nat) :
    t.bits ρ w = c.bits w := by
  rw [eq_const_of_const? h, bits_const]

theorem width_of_const? {t : Term .word} {c : Word} (h : t.const? = some c) : c.width = t.width := by
  rw [eq_const_of_const? h]
  rfl

theorem holds_of_truth? {p : Cond} {v : Bool} (h : p.truth? = some v) (ρ : Valuation) : p.holds ρ = v := by
  rw [eq_truth_of_truth? h, holds_truth]

theorem truth?_of_isConst {p : Cond} (h : p.isConst = true) (ρ : Valuation) : p.truth? = some (p.holds ρ) := by
  cases htruth : p.truth? with
  | none => rw [truth?_eq_none_iff.mp htruth] at h; cases h
  | some v => rw [holds_of_truth? htruth]

theorem bits_of_isZero {t : Term .word} (h : t.isZero = true) (ρ : Valuation) (w : Nat) :
    t.bits ρ w = 0#w := by
  obtain ⟨c, hc, hzero⟩ := (Option.any_eq_true _ _).mp h
  rw [Word.isZero, beq_iff_eq] at hzero
  rw [bits_of_const? hc, Word.bits, hzero]

theorem bits_of_isOne {t : Term .word} (h : t.isOne = true) (ρ : Valuation) (w : Nat) :
    t.bits ρ w = 1#w := by
  obtain ⟨c, hc, hone⟩ := (Option.any_eq_true _ _).mp h
  rw [bits_of_const? hc, Word.bits_of_isOne hone]

theorem bits_of_isOnes {t : Term .word} (hw : t.width = w) (h : t.isOnes = true) (ρ : Valuation) :
    t.bits ρ w = BitVec.allOnes w := by
  obtain ⟨c, hc, hones⟩ := (Option.any_eq_true _ _).mp h
  rw [bits_of_const? hc, (Word.isOnes_iff ((width_of_const? hc).trans hw)).mp hones]

theorem width_foldConsts (op : NaryOp) (acc : Word) (ts : List (Term .word)) :
    (foldConsts op acc ts).1.width = acc.width := by
  induction ts generalizing acc with
  | nil => rfl
  | cons t ts ih =>
      rw [foldConsts]
      cases t.const? with
      | some c => exact (ih _).trans (op.width_apply acc c)
      | none => exact ih acc

/-- What is left besides the folded constant are the operands that are no constants. -/
theorem mem_foldConsts {op : NaryOp} {acc : Word} {ts : List (Term .word)} {u : Term .word}
    (h : u ∈ (foldConsts op acc ts).2) : u ∈ ts ∧ u.isConst = false := by
  induction ts generalizing acc with
  | nil => cases h
  | cons t ts ih =>
      rw [foldConsts] at h
      cases hc : t.const? with
      | some c =>
          rw [hc] at h
          obtain ⟨hmem, hu⟩ := ih h
          exact ⟨List.mem_cons_of_mem t hmem, hu⟩
      | none =>
          rw [hc] at h
          rcases List.mem_cons.mp h with rfl | h
          · exact ⟨List.mem_cons_self, const?_eq_none_iff.mp hc⟩
          · obtain ⟨hmem, hu⟩ := ih h
            exact ⟨List.mem_cons_of_mem t hmem, hu⟩

theorem total_foldConsts (op : NaryOp) (ρ : Valuation) {acc : Word} (hacc : acc.width = w)
    (ts : List (Term .word)) :
    op.bits ((foldConsts op acc ts).1.bits w) (op.total ((foldConsts op acc ts).2.map (bits ρ w))) =
      op.bits (acc.bits w) (op.total (ts.map (bits ρ w))) := by
  induction ts generalizing acc with
  | nil => rfl
  | cons t ts ih =>
      rw [foldConsts, List.map_cons, NaryOp.total_cons]
      cases hc : t.const? with
      | some c =>
          rw [bits_of_const? hc, ← NaryOp.bits_assoc, ← op.bits_apply hacc]
          exact ih ((op.width_apply acc c).trans hacc)
      | none =>
          dsimp only
          rw [List.map_cons, NaryOp.total_cons, NaryOp.bits_left_comm, ih hacc, NaryOp.bits_left_comm]

/-! ### Flattening -/

theorem total_parts (op : NaryOp) (ρ : Valuation) (t : Term .word) :
    op.total ((t.parts op).map (bits ρ w)) = t.bits ρ w := by
  unfold parts
  split
  · split_ifs with h
    · rw [bits_nary, h]
    · simp
  · simp

theorem total_condParts (op : Connective) (ρ : Valuation) (p : Cond) :
    op.total ((p.condParts op).map (holds ρ)) = p.holds ρ := by
  have hsingle : op.total ([p].map (holds ρ)) = p.holds ρ := by
    cases op <;> simp [Connective.total, Connective.apply, Connective.unit]
  unfold condParts
  split
  · split_ifs with h
    · rw [holds_junction, h]
    · exact hsingle
  · exact hsingle

theorem free_subset_of_mem_parts {op : NaryOp} {t u : Term .word} (h : u ∈ t.parts op) : u.free ⊆ t.free := by
  unfold parts at h
  split at h
  · split_ifs at h
    · exact fun s hs => mem_freeWords.mpr ⟨u, h, hs⟩
    · rw [List.mem_singleton.mp h]
      exact List.Subset.refl _
  · rw [List.mem_singleton.mp h]
    exact List.Subset.refl _

theorem free_subset_of_mem_condParts {op : Connective} {p q : Cond} (h : q ∈ p.condParts op) :
    q.free ⊆ p.free := by
  unfold condParts at h
  split at h
  · split_ifs at h
    · exact fun s hs => mem_freeConds.mpr ⟨q, h, hs⟩
    · rw [List.mem_singleton.mp h]
      exact List.Subset.refl _
  · rw [List.mem_singleton.mp h]
    exact List.Subset.refl _

/-! ### Cancelling -/

/-- Cancelling drops pairs of related terms, and nothing else. -/
theorem perm_cancel (related : Term .word → Term .word → Bool) (waiting ts : List (Term .word)) :
    ∃ pairs : List (Term .word × Term .word), (∀ q ∈ pairs, related q.1 q.2 = true) ∧
      (waiting ++ ts).Perm ((pairs.flatMap fun q => [q.1, q.2]) ++ cancel related waiting ts) := by
  induction ts generalizing waiting with
  | nil => exact ⟨[], List.forall_mem_nil _, by rw [cancel, List.append_nil, List.flatMap_nil, List.nil_append]⟩
  | cons t ts ih =>
      rw [cancel]
      split_ifs with h
      · obtain ⟨v, hv, hvt⟩ := List.any_eq_true.mp h
        obtain ⟨u, front, back, -, hu, hsplit, herase⟩ := List.exists_of_eraseP (p := (related · t)) hv hvt
        have hfound : waiting.Perm (u :: waiting.eraseP (related · t)) := by
          rw [herase, hsplit]
          exact List.perm_middle
        obtain ⟨pairs, hpairs, hperm⟩ := ih (waiting.eraseP (related · t))
        refine ⟨(u, t) :: pairs, List.forall_mem_cons.mpr ⟨hu, hpairs⟩, ?_⟩
        exact (hfound.append_right _).trans ((List.perm_middle.trans (hperm.cons t)).cons u)
      · obtain ⟨pairs, hpairs, hperm⟩ := ih (waiting ++ [t])
        rw [List.append_assoc, List.singleton_append] at hperm
        exact ⟨pairs, hpairs, hperm⟩

theorem exists_pairs_of_cancel (related : Term .word → Term .word → Bool) (ts : List (Term .word)) :
    ∃ pairs : List (Term .word × Term .word), (∀ q ∈ pairs, q.1 ∈ ts ∧ q.2 ∈ ts ∧ related q.1 q.2 = true) ∧
      ts.Perm ((pairs.flatMap fun q => [q.1, q.2]) ++ cancel related [] ts) := by
  obtain ⟨pairs, hpairs, hperm⟩ := perm_cancel related [] ts
  rw [List.nil_append] at hperm
  refine ⟨pairs, fun q hq => ?_, hperm⟩
  have hmem : ∀ t ∈ [q.1, q.2], t ∈ ts := fun t ht =>
    hperm.mem_iff.mpr (List.mem_append_left _ (List.mem_flatMap.mpr ⟨q, hq, ht⟩))
  exact ⟨hmem _ (by simp), hmem _ (by simp), hpairs q hq⟩

theorem mem_of_mem_cancel {related : Term .word → Term .word → Bool} {ts : List (Term .word)} {u : Term .word}
    (h : u ∈ cancel related [] ts) : u ∈ ts := by
  obtain ⟨pairs, -, hperm⟩ := exists_pairs_of_cancel related ts
  exact hperm.mem_iff.mpr (List.mem_append_right _ h)

/-- Dropping pairs that come to the neutral vector changes nothing. -/
theorem total_cancel (op : NaryOp) {ρ : Valuation} (related : Term .word → Term .word → Bool)
    {ts : List (Term .word)}
    (hrel : ∀ t ∈ ts, ∀ u ∈ ts, related t u = true → op.bits (t.bits ρ w) (u.bits ρ w) = op.neutral w) :
    op.total ((cancel related [] ts).map (bits ρ w)) = op.total (ts.map (bits ρ w)) := by
  obtain ⟨pairs, hpairs, hperm⟩ := exists_pairs_of_cancel related ts
  have hneutral : op.total ((pairs.flatMap fun q => [q.1, q.2]).map (bits ρ w)) = op.neutral w := by
    clear hperm
    induction pairs with
    | nil => rfl
    | cons q pairs ih =>
        rw [List.forall_mem_cons] at hpairs
        obtain ⟨⟨ht, hu, hrelated⟩, hpairs⟩ := hpairs
        rw [List.flatMap_cons, List.map_append, NaryOp.total_append, ih hpairs, NaryOp.bits_neutral]
        simp [NaryOp.total_cons, hrel q.1 ht q.2 hu hrelated]
  rw [op.total_perm (hperm.map _), List.map_append, NaryOp.total_append, hneutral, NaryOp.neutral_bits]

/-! ### Repetitions and order -/

theorem mem_of_mem_dedup {ts : List (Term k)} {t : Term k} (h : t ∈ dedup ts) : t ∈ ts := by
  induction ts with
  | nil => cases h
  | cons u ts ih =>
      rw [dedup] at h
      split_ifs at h
      · exact List.mem_cons_of_mem u (ih h)
      · rcases List.mem_cons.mp h with rfl | h
        · exact List.mem_cons_self
        · exact List.mem_cons_of_mem u (ih h)

/-- Every number that occurs still does once repetitions are dropped. -/
theorem mem_dedup {ts : List (Term k)} (hid : ∀ t ∈ ts, ∀ u ∈ ts, t.id = u.id → t = u) {t : Term k} :
    t ∈ dedup ts ↔ t ∈ ts := by
  refine ⟨mem_of_mem_dedup, fun h => ?_⟩
  induction ts with
  | nil => cases h
  | cons u ts ih =>
      have ih' := ih fun v hv v' hv' => hid v (List.mem_cons_of_mem u hv) v' (List.mem_cons_of_mem u hv')
      rw [dedup]
      split_ifs with hany
      · rcases List.mem_cons.mp h with rfl | h
        · obtain ⟨v, hv, hvid⟩ := List.any_eq_true.mp hany
          have heq := hid v (List.mem_cons_of_mem t hv) t List.mem_cons_self (beq_iff_eq.mp hvid)
          exact ih' (heq ▸ hv)
        · exact ih' h
      · rcases List.mem_cons.mp h with rfl | h
        · exact List.mem_cons_self
        · exact List.mem_cons_of_mem u (ih' h)

theorem insertById_perm (t : Term k) (ts : List (Term k)) : (insertById t ts).Perm (t :: ts) := by
  induction ts with
  | nil => exact List.Perm.refl _
  | cons u us ih =>
      rw [insertById]
      split_ifs
      · exact List.Perm.refl _
      · exact (ih.cons u).trans (List.Perm.swap t u us)

theorem sortById_perm (ts : List (Term k)) : (sortById ts).Perm ts := by
  induction ts with
  | nil => exact List.Perm.refl _
  | cons t ts ih => exact (insertById_perm t (sortById ts)).trans (ih.cons t)

theorem mem_sortById {ts : List (Term k)} {t : Term k} : t ∈ sortById ts ↔ t ∈ ts := (sortById_perm ts).mem_iff

end Term
end Pathwise
