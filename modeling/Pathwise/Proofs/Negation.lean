import Pathwise.Proofs.Simplification

/-! What the simplifying constructors of conditions answer, and the opposite of a term of either sort. Comparing
and joining follow the pattern of the operators on words. The opposite goes into sums and junctions, so it is
`opposite` for all terms, by one induction, with a lemma for each kind of term that it takes apart. -/

namespace Pathwise.Build

open Builder Term

variable {w : Nat} {b : Builder} {x y : Term .word} {names : List (String × Nat)}

/-! ### Comparing and joining -/

theorem bits_compare (op : CompareOp) {a a' : Word} (ha : a.width = w) (ha' : a'.width = w) :
    op.apply a a' = op.bits (a.bits w) (a'.bits w) := by
  cases op with
  | ult => exact Word.ult_eq_bits ha ha'
  | slt => exact Word.slt_eq_bits ha ha'
  | sle => exact Word.sle_eq_bits ha ha'
  | sgt =>
      refine (congrArg Bool.not (Word.sle_eq_bits ha ha')).trans ?_
      rw [BitVec.sle_eq_not_slt, Bool.not_not]
      rfl
  | sge =>
      refine (congrArg Bool.not (Word.slt_eq_bits ha ha')).trans ?_
      rw [← BitVec.sle_eq_not_slt]
      rfl
  | eq => exact Word.eq_iff_bits ha ha'

theorem bits_reflexive (op : CompareOp) (v : BitVec w) : op.bits v v = op.reflexive := by
  cases op <;> simp [CompareOp.bits, CompareOp.reflexive, BitVec.ult, BitVec.slt, BitVec.sle]

theorem bits_opposite {op op' : CompareOp} (h : op.opposite? = some op') (v u : BitVec w) :
    op'.bits v u = !op.bits v u := by
  cases op <;> cases h
  · exact BitVec.sle_eq_not_slt
  · exact (congrArg Bool.not BitVec.sle_eq_not_slt).trans (Bool.not_not _) |>.symm
  · exact BitVec.sle_eq_not_slt
  · exact (congrArg Bool.not BitVec.sle_eq_not_slt).trans (Bool.not_not _) |>.symm

theorem compare_runs (hb : b.Consistent) (op : CompareOp) (hx : b.HoldsAt w x) (hy : b.HoldsAt w y) :
    Runs (compare op x y) b fun p c =>
      c.MeansCond p (fun ρ => op.bits (x.bits ρ w) (y.bits ρ w)) (x.free ++ y.free) := by
  unfold compare MonadTerms.compare
  split
  · rename_i a a' ha ha'
    refine (truth_runs hb _ _).imp fun p c _ _ hp => hp.1.congr (fun ρ => ?_) (List.Subset.refl _)
    rw [bits_of_const? ha, bits_of_const? ha']
    exact bits_compare op ((width_of_const? ha).trans hx.width) ((width_of_const? ha').trans hy.width)
  · rename_i hnot
    split_ifs with hsame
    · refine (truth_runs hb _ _).imp fun p c _ _ hp => hp.1.congr (fun ρ => ?_) (List.Subset.refl _)
      rw [hb.eq_of_id hx.held hy.held hsame, bits_reflexive]
    · obtain ⟨hx, rfl⟩ := hx
      exact intern_cond_runs hb ⟨hy.width, not_const_of_not_both hnot⟩ ⟨hx, hy.held⟩ (List.Subset.refl _)

section Join

variable (hb : b.Consistent) {p q : Cond} (hp : b.Holds p) (hq : b.Holds q)

include hb hp hq

/-- What is known of the conditions once both sides are flattened, and one of each is left. -/
theorem condOperands_spec (op : Connective) (hpc : p.isConst = false) (hqc : q.isConst = false)
    {rs : List Cond} (hrs : sortById (dedup (p.condParts op ++ q.condParts op)) = rs) :
    rs ≠ [] ∧ (∀ r ∈ rs, b.Holds r ∧ r.isConst = false ∧ r.free ⊆ p.free ++ q.free) ∧
    ∀ ρ, op.total (rs.map (Term.holds ρ)) = op.apply (p.holds ρ) (q.holds ρ) := by
  have hpart : ∀ r ∈ p.condParts op ++ q.condParts op,
      b.Holds r ∧ r.isConst = false ∧ r.free ⊆ p.free ++ q.free := by
    intro r hr
    rcases List.mem_append.mp hr with hr | hr
    · obtain ⟨hheld, hconst⟩ := hp.condParts hb hpc hr
      exact ⟨hheld, hconst, List.subset_append_of_subset_left _ (free_subset_of_mem_condParts hr)⟩
    · obtain ⟨hheld, hconst⟩ := hq.condParts hb hqc hr
      exact ⟨hheld, hconst, List.subset_append_of_subset_right _ (free_subset_of_mem_condParts hr)⟩
  have hmem : ∀ r, r ∈ rs ↔ r ∈ p.condParts op ++ q.condParts op := fun r => by
    rw [← hrs, mem_sortById,
      mem_dedup fun r hr r' hr' h => hb.eq_of_id (hpart r hr).1 (hpart r' hr').1 h]
  refine ⟨?_, fun r hr => hpart r ((hmem r).mp hr), fun ρ => ?_⟩
  · obtain ⟨r, hr⟩ := List.exists_mem_of_ne_nil _ (condParts_ne_nil hb op hp)
    exact List.ne_nil_of_mem ((hmem r).mpr (List.mem_append_left _ hr))
  · rw [← total_condParts op ρ p, ← total_condParts op ρ q, ← op.total_append, ← List.map_append]
    refine op.total_congr fun v => ?_
    simp only [List.mem_map, hmem]

theorem join_runs (op : Connective) :
    Runs (join op p q) b fun r c =>
      c.MeansCond r (fun ρ => op.apply (p.holds ρ) (q.holds ρ)) (p.free ++ q.free) := by
  have hunit : ∀ v : Bool, op.apply op.unit v = v ∧ op.apply v op.unit = v ∧
      (v ≠ op.unit → ∀ u, op.apply v u = !op.unit ∧ op.apply u v = !op.unit) := by
    cases op <;> decide
  unfold join
  cases hv : p.truth? with
  | some v =>
      have hpv := holds_of_truth? hv
      dsimp only
      split_ifs with h
      · refine Runs.pure hb (hq.means.congr (fun ρ => ?_) (List.subset_append_right _ _))
        rw [hpv, h, (hunit _).1]
      · refine (truth_runs hb _ _).imp fun r c _ _ hr => hr.1.congr (fun ρ => ?_) (List.Subset.refl _)
        rw [hpv, ((hunit v).2.2 h _).1]
  | none =>
      cases hv' : q.truth? with
      | some v =>
          have hqv := holds_of_truth? hv'
          dsimp only
          split_ifs with h
          · refine Runs.pure hb (hp.means.congr (fun ρ => ?_) (List.subset_append_left _ _))
            rw [hqv, h, (hunit _).2.1]
          · refine (truth_runs hb _ _).imp fun r c _ _ hr => hr.1.congr (fun ρ => ?_) (List.Subset.refl _)
            rw [hqv, ((hunit v).2.2 h _).2]
      | none =>
          dsimp only
          generalize hparts : sortById (dedup (p.condParts op ++ q.condParts op)) = rs
          obtain ⟨hne, hrs, htotal⟩ := condOperands_spec hb hp hq op (truth?_eq_none_iff.mp hv)
            (truth?_eq_none_iff.mp hv') hparts
          split
          · rename_i r
            obtain ⟨hheld, -, hfree⟩ := hrs r (List.mem_singleton.mpr rfl)
            refine Runs.pure hb ⟨hheld, fun ρ => ?_, hfree⟩
            rw [← htotal ρ]
            cases op <;> simp [Connective.total, Connective.apply, Connective.unit]
          · refine (intern_cond_runs hb (d := .junction 0 op rs) ⟨hne, fun r hr => (hrs r hr).2.1⟩
              (fun r hr => (hrs r hr).1) fun s hs => ?_).imp
              fun r c _ _ hr => hr.congr (fun ρ => ?_) (List.Subset.refl _)
            · obtain ⟨r, hr, hs⟩ := mem_freeConds.mp hs
              exact (hrs r hr).2.2 hs
            · rw [holds_junction, htotal]

end Join

/-- Joining conditions one after the other. -/
theorem foldlM_join_runs (op : Connective) {names : List (String × Nat)} {ps : List Cond} :
    ∀ {b : Builder} {acc : Cond} {f : Valuation → Bool}, b.Consistent → b.MeansCond acc f names →
      (∀ p ∈ ps, b.Holds p ∧ p.free ⊆ names) →
      Runs (ps.foldlM (join op) acc) b fun r c =>
        c.MeansCond r (fun ρ => op.apply (f ρ) (op.total (ps.map (Term.holds ρ)))) names := by
  induction ps with
  | nil =>
      intro b acc f hb hacc _
      refine Runs.pure hb (hacc.congr (fun ρ => ?_) (List.Subset.refl _))
      cases op <;> simp [Connective.total, Connective.apply, Connective.unit]
  | cons p ps ih =>
      intro b acc f hb hacc hps
      rw [List.forall_mem_cons] at hps
      rw [List.foldlM_cons]
      refine Runs.bind (join_runs hb hacc.held hps.1.1 op) fun r c hle hc hr => ?_
      have hr' : c.MeansCond r (fun ρ => op.apply (f ρ) (p.holds ρ)) names :=
        hr.congr (fun ρ => by rw [hacc.holds]) (List.append_subset.mpr ⟨hacc.free, hps.1.2⟩)
      refine (ih hc hr' fun q hq => ⟨(hps.2 q hq).1.mono hle, (hps.2 q hq).2⟩).imp
        fun r' c' _ _ hr' => hr'.congr (fun ρ => ?_) (List.Subset.refl _)
      cases op with
      | and => exact Bool.and_assoc _ _ _
      | or => exact Bool.or_assoc _ _ _

theorem all_runs (hb : b.Consistent) {names : List (String × Nat)} {ps : List Cond}
    (hps : ∀ p ∈ ps, b.Holds p ∧ p.free ⊆ names) :
    Runs (all ps) b fun r c =>
      c.MeansCond r (fun ρ => Connective.and.total (ps.map (Term.holds ρ))) names := by
  unfold all
  refine Runs.bind (truth_runs hb true names) fun start c hle hc hstart => ?_
  refine (foldlM_join_runs .and hc hstart.1 fun p hp => ⟨(hps p hp).1.mono hle, (hps p hp).2⟩).imp
    fun r c' _ _ hr => hr.congr (fun ρ => ?_) (List.Subset.refl _)
  exact Bool.true_and _

/-! ### Opposites -/

/-- What the opposite of a term of either sort is. -/
def Opposite (b : Builder) : (k : Ty) → Term k → Prop
  | .word, t => Runs (negate t) b fun u c => c.MeansWord u (fun ρ => -t.bits ρ t.width) t.free
  | .bool, p => Runs (negate p) b fun q c => c.MeansCond q (fun ρ => !p.holds ρ) p.free

/-- A word that is no constant, no opposite and no sum gets a sign. -/
theorem intern_neg_runs (hb : b.Consistent) (hx : b.Holds x) (hconst : x.isConst = false) :
    Runs (intern (.unary 0 .neg x)) b fun t c => c.MeansWord t (fun ρ => -x.bits ρ x.width) x.free :=
  intern_word_runs hb hconst hx rfl (List.Subset.refl _)

theorem intern_not_runs (hb : b.Consistent) {p : Cond} (hp : b.Holds p) (hconst : p.isConst = false) :
    Runs (intern (.not 0 p)) b fun q c => c.MeansCond q (fun ρ => !p.holds ρ) p.free :=
  intern_cond_runs hb hconst hp (List.Subset.refl _)

theorem negateSum_runs {ts : List (Term .word)}
    (ih : ∀ t ∈ ts, ∀ b : Builder, b.Consistent → b.Holds t → Opposite b .word t) :
    ∀ {b : Builder} {acc : Term .word} {f : Valuation → BitVec w}, b.Consistent →
      b.MeansWord acc f names → (∀ t ∈ ts, b.HoldsAt w t ∧ t.free ⊆ names) →
      Runs (negateSum acc ts) b fun u c =>
        c.MeansWord u (fun ρ => f ρ + -NaryOp.add.total (ts.map (Term.bits ρ w))) names := by
  induction ts with
  | nil =>
      intro b acc f hb hacc _
      rw [negateSum, MonadTerms.negateSum]
      refine Runs.pure hb (hacc.congr (fun ρ => ?_) (List.Subset.refl _))
      simp [NaryOp.neutral]
  | cons t ts ihts =>
      intro b acc f hb hacc hts
      rw [List.forall_mem_cons] at ih hts
      obtain ⟨⟨ht, htfree⟩, hts⟩ := hts
      rw [negateSum, MonadTerms.negateSum]
      refine Runs.bind (ih.1 b hb ht.held) fun n c hle hc hn => ?_
      rw [ht.width] at hn
      refine Runs.bind (add_runs hc (hacc.toHoldsAt.mono hle) hn.toHoldsAt) fun u c' hle' hc' hu => ?_
      have hu' : c'.MeansWord u (fun ρ => f ρ + -t.bits ρ w) names :=
        hu.congr (fun ρ => by rw [hacc.bits, hn.bits])
          (List.append_subset.mpr ⟨hacc.free, List.Subset.trans hn.free htfree⟩)
      refine (ihts ih.2 hc' hu' fun t' ht' => ⟨(hts t' ht').1.mono (hle.trans hle'), (hts t' ht').2⟩).imp
        fun v c'' _ _ hv => hv.congr (fun ρ => ?_) (List.Subset.refl _)
      rw [List.map_cons, NaryOp.total_cons]
      change _ = f ρ + -(t.bits ρ w + NaryOp.add.total (ts.map (Term.bits ρ w)))
      rw [BitVec.neg_add, BitVec.sub_eq_add_neg, BitVec.add_assoc]

theorem negateJoin_runs (op : Connective) {ps : List Cond}
    (ih : ∀ p ∈ ps, ∀ b : Builder, b.Consistent → b.Holds p → Opposite b .bool p) :
    ∀ {b : Builder} {acc : Cond} {f : Valuation → Bool}, b.Consistent → b.MeansCond acc f names →
      (∀ p ∈ ps, b.Holds p ∧ p.free ⊆ names) →
      Runs (negateJoin op acc ps) b fun q c =>
        c.MeansCond q (fun ρ => op.apply (f ρ) (!op.dual.total (ps.map (Term.holds ρ)))) names := by
  induction ps with
  | nil =>
      intro b acc f hb hacc _
      rw [negateJoin, MonadTerms.negateJoin]
      refine Runs.pure hb (hacc.congr (fun ρ => ?_) (List.Subset.refl _))
      cases op <;> simp [Connective.total, Connective.apply, Connective.unit, Connective.dual]
  | cons p ps ihps =>
      intro b acc f hb hacc hps
      rw [List.forall_mem_cons] at ih hps
      obtain ⟨⟨hp, hpfree⟩, hps⟩ := hps
      rw [negateJoin, MonadTerms.negateJoin]
      refine Runs.bind (ih.1 b hb hp) fun n c hle hc hn => ?_
      refine Runs.bind (join_runs hc (hacc.held.mono hle) hn.held op) fun q c' hle' hc' hq => ?_
      have hq' : c'.MeansCond q (fun ρ => op.apply (f ρ) (!p.holds ρ)) names :=
        hq.congr (fun ρ => by rw [hacc.holds, hn.holds])
          (List.append_subset.mpr ⟨hacc.free, List.Subset.trans hn.free hpfree⟩)
      refine (ihps ih.2 hc' hq' fun p' hp' => ⟨(hps p' hp').1.mono (hle.trans hle'), (hps p' hp').2⟩).imp
        fun r c'' _ _ hr => hr.congr (fun ρ => ?_) (List.Subset.refl _)
      rw [List.map_cons]
      generalize hs : ps.map (Term.holds ρ) = vs
      cases op with
      | and =>
          change ((f ρ && !p.holds ρ) && !Connective.or.total vs) =
            (f ρ && !(p.holds ρ || Connective.or.total vs))
          rw [Bool.not_or, Bool.and_assoc]
      | or =>
          change ((f ρ || !p.holds ρ) || !Connective.and.total vs) =
            (f ρ || !(p.holds ρ && Connective.and.total vs))
          rw [Bool.not_and, Bool.or_assoc]

/-- The sign goes to every operand of a sum. -/
theorem opposite_sum {i : Nat} {args : List (Term .word)}
    (ih : ∀ t ∈ args, ∀ b : Builder, b.Consistent → b.Holds t → Opposite b .word t) (hb : b.Consistent)
    (hsum : b.Holds (.nary i .add args)) : Opposite b .word (.nary i .add args) := by
  obtain ⟨hwidths, u, hu, -⟩ := hb.proper hsum
  obtain ⟨t, ts, rfl⟩ := List.exists_cons_of_ne_nil (List.ne_nil_of_mem hu)
  have hargs : ∀ v ∈ t :: ts, b.HoldsAt t.width v ∧ v.free ⊆ freeWords (t :: ts) := fun v hv =>
    ⟨⟨hb.children hsum v hv, hwidths v hv⟩, fun s hs => mem_freeWords.mpr ⟨v, hv, hs⟩⟩
  rw [List.forall_mem_cons] at ih hargs
  rw [Opposite, negate, MonadTerms.negate]
  refine Runs.bind (ih.1 b hb hargs.1.1.held) fun n c hle hc hn => ?_
  have hn' : c.MeansWord n (fun ρ => -t.bits ρ t.width) (freeWords (t :: ts)) :=
    hn.congr (fun _ => rfl) hargs.1.2
  refine (negateSum_runs ih.2 hc hn' fun v hv => ⟨(hargs.2 v hv).1.mono hle, (hargs.2 v hv).2⟩).imp
    fun v c' _ _ hv => hv.congr (fun ρ => ?_) (List.Subset.refl _)
  rw [bits_nary, List.map_cons, NaryOp.total_cons]
  change _ = -(t.bits ρ t.width + NaryOp.add.total (ts.map (Term.bits ρ t.width)))
  rw [BitVec.neg_add, BitVec.sub_eq_add_neg]

/-- A comparison is turned into the opposite one, if there is such. -/
theorem opposite_compare (hb : b.Consistent) {i : Nat} {op : CompareOp} {left right : Term .word}
    (h : b.Holds (.compare i op left right)) : Opposite b .bool (.compare i op left right) := by
  rw [Opposite, negate, MonadTerms.negate]
  split
  · rename_i op' hop
    have hproper : Term.Proper (.compare 0 op' left right) := hb.proper (t := .compare i op left right) h
    have hchildren : Term.Children b.Holds (.compare 0 op' left right) :=
      hb.children (t := .compare i op left right) h
    refine (intern_cond_runs hb hproper hchildren (List.Subset.refl _)).imp
      fun q c _ _ hq => hq.congr (fun ρ => ?_) (List.Subset.refl _)
    rw [holds_compare, holds_compare, bits_opposite hop]
  · exact intern_not_runs hb h rfl

/-- The opposite of a junction is the dual junction of the opposites. -/
theorem opposite_junction {i : Nat} {op : Connective} {args : List Cond}
    (ih : ∀ p ∈ args, ∀ b : Builder, b.Consistent → b.Holds p → Opposite b .bool p) (hb : b.Consistent)
    (h : b.Holds (.junction i op args)) : Opposite b .bool (.junction i op args) := by
  obtain ⟨p, ps, rfl⟩ := List.exists_cons_of_ne_nil (hb.proper h).1
  have hargs : ∀ q ∈ p :: ps, b.Holds q ∧ q.free ⊆ freeConds (p :: ps) := fun q hq =>
    ⟨hb.children h q hq, fun s hs => mem_freeConds.mpr ⟨q, hq, hs⟩⟩
  rw [List.forall_mem_cons] at ih hargs
  rw [Opposite, negate, MonadTerms.negate]
  refine Runs.bind (ih.1 b hb hargs.1.1) fun n c hle hc hn => ?_
  have hn' : c.MeansCond n (fun ρ => !p.holds ρ) (freeConds (p :: ps)) := hn.congr (fun _ => rfl) hargs.1.2
  refine (negateJoin_runs op.dual ih.2 hc hn' fun q hq => ⟨(hargs.2 q hq).1.mono hle, (hargs.2 q hq).2⟩).imp
    fun q c' _ _ hq => hq.congr (fun ρ => ?_) (List.Subset.refl _)
  rw [holds_junction, List.map_cons]
  generalize ps.map (Term.holds ρ) = vs
  cases op with
  | and => exact (Bool.not_and _ _).symm
  | or => exact (Bool.not_or _ _).symm

/-- The opposite of any held term. -/
theorem opposite {k : Ty} (t : Term k) : ∀ b : Builder, b.Consistent → b.Holds t → Opposite b k t := by
  induction t using Term.induct with
  | symbol i name width =>
      intro b hb ht
      rw [Opposite, negate, MonadTerms.negate]
      exact intern_neg_runs hb ht rfl
  | const i c =>
      intro b hb ht
      rw [Opposite, negate, MonadTerms.negate]
      exact const_runs_of_bits hb (Word.width_neg c) fun ρ => Word.bits_neg rfl
  | ite i cond yes no =>
      intro b hb ht
      rw [Opposite, negate, MonadTerms.negate]
      exact intern_neg_runs hb ht rfl
  | unary i op arg =>
      intro b hb ht
      rw [Opposite, negate, MonadTerms.negate]
      split_ifs with hop
      · subst hop
        have harg : b.HoldsAt arg.width arg := ⟨hb.children ht, rfl⟩
        refine Runs.pure hb (harg.means.congr (fun ρ => ?_) (List.Subset.refl _))
        exact BitVec.neg_neg.symm
      · exact intern_neg_runs hb ht rfl
  | binary i op left right =>
      intro b hb ht
      rw [Opposite, negate, MonadTerms.negate]
      exact intern_neg_runs hb ht rfl
  | nary i op args ih =>
      intro b hb ht
      by_cases hop : op = .add
      · subst hop
        exact opposite_sum ih hb ht
      · have hsum : ∀ j us, Term.nary i op args ≠ .nary j .add us := by
          rintro j us ⟨⟩
          exact hop rfl
        rw [Opposite, negate_of_atom rfl (by rintro _ _ ⟨⟩) hsum]
        exact intern_neg_runs hb ht rfl
  | truth i v =>
      intro b hb _
      rw [Opposite, negate, MonadTerms.negate]
      exact (truth_runs hb _ _).imp fun q c _ _ hq => hq.1
  | not i arg =>
      intro b hb ht
      rw [Opposite, negate, MonadTerms.negate]
      have harg : b.Holds arg := hb.children ht
      refine Runs.pure hb (harg.means.congr (fun ρ => ?_) (List.Subset.refl _))
      rw [holds_not, Bool.not_not]
  | compare i op left right => exact fun b hb ht => opposite_compare hb ht
  | junction i op args ih => exact fun b hb ht => opposite_junction ih hb ht

theorem neg_runs (hb : b.Consistent) (hx : b.HoldsAt w x) :
    Runs (neg x) b fun t c => c.MeansWord t (fun ρ => -x.bits ρ w) x.free := by
  obtain ⟨hx, rfl⟩ := hx
  exact opposite x b hb hx

theorem boolNot_runs (hb : b.Consistent) {p : Cond} (hp : b.Holds p) :
    Runs (boolNot p) b fun q c => c.MeansCond q (fun ρ => !p.holds ρ) p.free :=
  opposite p b hb hp

theorem unary_runs (hb : b.Consistent) (op : UnaryOp) (hx : b.HoldsAt w x) :
    Runs (unary op x) b fun t c => c.MeansWord t (fun ρ => op.bits (x.bits ρ w)) x.free := by
  cases op with
  | not => exact bitNot_runs hb hx
  | neg => exact neg_runs hb hx

theorem sub_runs (hb : b.Consistent) (hx : b.HoldsAt w x) (hy : b.HoldsAt w y) :
    Runs (sub x y) b fun t c =>
      c.MeansWord t (fun ρ => x.bits ρ w - y.bits ρ w) (x.free ++ y.free) := by
  refine Runs.bind (neg_runs hb hy) fun n c hle hc hn => ?_
  refine (add_runs hc (hx.mono hle) hn.toHoldsAt).imp fun t c' _ _ ht => ht.congr (fun ρ => ?_) ?_
  · rw [hn.bits, BitVec.sub_eq_add_neg]
  · exact List.append_subset.mpr ⟨List.subset_append_left _ _, List.subset_append_of_subset_right _ hn.free⟩

theorem notEqual_runs (hb : b.Consistent) (hx : b.HoldsAt w x) (hy : b.HoldsAt w y) :
    Runs (notEqual x y) b fun p c =>
      c.MeansCond p (fun ρ => x.bits ρ w != y.bits ρ w) (x.free ++ y.free) := by
  refine Runs.bind (compare_runs hb .eq hx hy) fun p c _ hc hp => ?_
  refine (boolNot_runs hc hp.held).imp fun q c' _ _ hq => hq.congr (fun ρ => ?_) hp.free
  rw [hp.holds]
  rfl

end Pathwise.Build
