import Pathwise.Proofs.OrderIndependence

/-! Inverse laws. An opposite is built part by part: a sign goes to every operand of a sum, a negation to every part
of a junction. Nothing is lost on the way. A word and its opposite come to nothing together, and a word is determined
by what its parts come to, so that the laws of a group hold of the terms themselves and not only of what they mean.

A condition that is negated twice is taken apart twice. None of its parts are merged or flattened in between, since
the negation of each can be undone: `Build.Undone` says so of one condition, and the induction over conditions hands
it on. -/

namespace Pathwise

open Builder

variable {w : Nat} {b c d : Builder}

/-! ### Operations that undo themselves -/

theorem Word.not_not (a : Word) : a.not.not = a := by
  refine Build.eq_of_bits (w := a.width) rfl rfl ?_
  rw [Word.bits_not (Word.width_not a), Word.bits_not rfl, BitVec.not_not]

theorem CompareOp.opposite_symm {op op' : CompareOp} (h : op.opposite? = some op') : op'.opposite? = some op := by
  cases op <;> cases h <;> rfl

theorem Connective.dual_dual (op : Connective) : op.dual.dual = op := by
  cases op <;> rfl

/-- Interning a held node once more answers with the node. -/
theorem Build.intern_again (hb : b.Consistent) {k : Ty} {t : Term k} (ht : b.Holds t) :
    (intern (t.withId 0) b).1 = t ∧ (intern (t.withId 0) b).2.SameTable b :=
  intern_of_held hb ht (Term.alike_symm (Term.alike_withId_self 0 t))

/-! ### A word and its opposite -/

namespace NaryOp.Equates

variable {ts us vs : List (Term .word)}

/-- In a sum the same operands on both sides can be left out. -/
theorem cancel_right (h : add.Equates w (ts ++ us) (vs ++ us)) : add.Equates w ts vs := by
  refine ⟨?_, fun _ => ?_⟩
  · have hconstant := h.constant
    rw [constant_append, constant_append] at hconstant
    exact (BitVec.add_left_inj _).mp hconstant
  · funext i
    have htally : add.sum (Term.others (ts ++ us)) i = add.sum (Term.others (vs ++ us)) i :=
      congrFun (h.tally not_false) i
    rw [others_append, others_append, sum_append, sum_append] at htally
    show add.sum (Term.others ts) i = add.sum (Term.others vs) i
    omega

end NaryOp.Equates

/-- A word held by a tidy builder that comes, with other operands beside it, to what some operands come to. -/
structure Builder.Balances (b : Builder) (w : Nat) (r : Term .word) (ts us : List (Term .word)) : Prop
    extends b.HoldsAt w r where
  tidy : b.Tidy
  equates : NaryOp.add.Equates w (r.parts .add ++ ts) us

namespace Builder.Balances

variable {r s : Term .word} {ts us : List (Term .word)}

theorem parts (h : b.Balances w r [] us) : NaryOp.add.Equates w (r.parts .add) us := by
  have hequates := h.equates
  rwa [List.append_nil] at hequates

theorem mono (hle : b ≤ c) (hc : c.Tidy) (h : b.Balances w r ts us) : c.Balances w r ts us :=
  ⟨h.toHoldsAt.mono hle, hc, h.equates⟩

/-- One more operand on both sides. -/
theorem cons (h : b.Balances w r ts us) (t : Term .word) :
    NaryOp.add.Equates w (r.parts .add ++ t :: ts) (us ++ [t]) := by
  calc
    NaryOp.add.Equates w (r.parts .add ++ t :: ts) (r.parts .add ++ ts ++ [t]) := by
      rw [List.append_assoc]
      exact .of_perm .add w ((List.perm_append_singleton t ts).symm.append_left _)
    NaryOp.add.Equates w _ (us ++ [t]) := h.equates.append (.refl .add w _)

/-- There is one word that makes a balance. -/
theorem unique (hb : b.Consistent) (hr : b.Balances w r ts us) (hs : b.Balances w s ts us) : r = s := by
  have hnot : ¬NaryOp.add.Absorbs (NaryOp.add.neutral w) := not_false
  exact Term.eq_of_equates hb hr.tidy hnot hr.toHoldsAt hs.toHoldsAt (hr.equates.trans hs.equates.symm).cancel_right

end Builder.Balances

namespace Build

open Term NaryOp

variable {t x y : Term .word}

/-- A word that is no constant and no sum gets a sign or loses it. -/
theorem negate_isOpposite (hb : b.Consistent) (htidy : b.Tidy) (ht : b.Holds t) (hconst : t.isConst = false)
    (hflat : t.parts .add = [t]) : (negate t b).1.isOpposite t = true := by
  by_cases hneg : ∃ i u, t = .unary i .neg u
  · obtain ⟨i, u, rfl⟩ := hneg
    rw [negate, MonadTerms.negate, if_pos rfl]
    show u.isOpposite (.unary i .neg u) = true
    simp [isOpposite]
  · have hsum : ∀ i ts, t ≠ .nary i .add ts := by
      rintro i ts rfl
      -- A sum has at least two operands, so it is not its only part.
      have hmany := (htidy.term ht).many
      rw [parts, if_pos rfl] at hflat
      rw [hflat, List.length_singleton] at hmany
      omega
    rw [negate_of_atom hconst (fun i u h => hneg ⟨i, u, h⟩) hsum, intern_eq_withId hb (d := .unary 0 .neg t) ht]
    simp [withId, isOpposite]

/-- A word that is no sum and its opposite come to nothing. -/
theorem negate_equates_of_flat (hb : b.Consistent) (htidy : b.Tidy) (ht : b.HoldsAt w t)
    (hflat : t.parts .add = [t]) : NaryOp.add.Equates w ((negate t b).1.parts .add ++ [t]) [] := by
  cases hc : t.const? with
  | some a =>
      have hneg : (negate t b).1.const? = some a.neg := by
        rw [eq_const_of_const? hc, negate, MonadTerms.negate]
        exact congrArg const? (intern_eq_withId hb (d := .const 0 a.neg) trivial)
      rw [parts_of_const? hneg]
      refine ⟨?_, fun _ => ?_⟩
      · rw [constant_append, NaryOp.add.constant_singleton w hneg, NaryOp.add.constant_singleton w hc,
          Word.bits_neg ((width_of_const? hc).trans ht.width)]
        exact BitVec.add_left_neg _
      · rw [others_append, others_singleton hneg, others_singleton hc]
        rfl
  | none =>
      have hrun := neg_runs hb ht
      have hopposite := negate_isOpposite hb htidy ht.held (const?_eq_none_iff.mp hc) hflat
      have htidy' := negate_tidy t b hb htidy ht.held
      have hzero : NaryOp.add.Equates w ((const (NaryOp.add.unit w) (negate t b).2).1.parts .add) [] :=
        const_equates hrun.consistent (NaryOp.add.bits_unit w).symm fun _ => rfl
      have hclash : NaryOp.add.Equates w _ ((negate t b).1.parts .add ++ t.parts .add) :=
        clash_equates hrun.consistent htidy' hrun.post.held (ht.held.mono hrun.grows) (Or.inl rfl) hopposite
      rw [hflat] at hclash
      exact hclash.symm.trans hzero

theorem negate_balances_of_flat (hb : b.Consistent) (htidy : b.Tidy) (ht : b.HoldsAt w t)
    (hflat : t.parts .add = [t]) : Runs (negate t) b fun n c => c.Balances w n [t] [] := by
  have hrun := neg_runs hb ht
  exact hrun.of_post ⟨hrun.post.toHoldsAt, negate_tidy t b hb htidy ht.held, negate_equates_of_flat hb htidy ht hflat⟩

theorem add_balances (hb : b.Consistent) (htidy : b.Tidy) (hx : b.HoldsAt w x) (hy : b.HoldsAt w y) :
    Runs (add x y) b fun s c => c.Balances w s [] (x.parts .add ++ y.parts .add) := by
  refine (nary_combines hb htidy hx hy .add).imp fun s c _ _ h => ?_
  obtain ⟨htidy', hs, hequates⟩ := h
  refine ⟨hs, htidy', ?_⟩
  rw [List.append_nil]
  exact hequates

/-- Adding the opposites of operands that are no sums takes the operands away. -/
theorem negateSum_balances {ts : List (Term .word)} :
    ∀ {b : Builder} {acc : Term .word}, b.Consistent → b.Tidy → b.HoldsAt w acc →
      (∀ t ∈ ts, b.HoldsAt w t ∧ t.parts .add = [t]) →
      Runs (negateSum acc ts) b fun r c => c.Balances w r ts (acc.parts .add) := by
  induction ts with
  | nil =>
      intro b acc hb htidy hacc _
      rw [negateSum, MonadTerms.negateSum]
      refine Runs.pure hb ⟨hacc, htidy, ?_⟩
      rw [List.append_nil]
      exact .refl .add w _
  | cons t ts ih =>
      intro b acc hb htidy hacc hts
      rw [List.forall_mem_cons] at hts
      obtain ⟨⟨ht, hflat⟩, hts⟩ := hts
      rw [negateSum, MonadTerms.negateSum]
      refine Runs.bind (negate_balances_of_flat hb htidy ht hflat) fun n c hle hc hn => ?_
      refine Runs.bind (add_balances hc hn.tidy (hacc.mono hle) hn.toHoldsAt) fun s d hle' hd hs => ?_
      have hts' : ∀ u ∈ ts, d.HoldsAt w u ∧ u.parts .add = [u] := fun u hu =>
        ⟨(hts u hu).1.mono (hle.trans hle'), (hts u hu).2⟩
      refine (ih hd hs.tidy hs.toHoldsAt hts').imp fun r e _ _ hr => ⟨hr.toHoldsAt, hr.tidy, ?_⟩
      calc
        NaryOp.add.Equates w (r.parts .add ++ t :: ts) (s.parts .add ++ [] ++ [t]) := by
          rw [List.append_nil]
          exact hr.cons t
        NaryOp.add.Equates w _ (acc.parts .add ++ n.parts .add ++ [t]) := hs.equates.append (.refl .add w _)
        NaryOp.add.Equates w _ (acc.parts .add ++ []) := by
          rw [List.append_assoc]
          exact (NaryOp.Equates.refl .add w _).append hn.equates
        NaryOp.add.Equates w _ (acc.parts .add) := by
          rw [List.append_nil]
          exact .refl .add w _

/-- A word and its opposite come to nothing. -/
theorem negate_balances (hb : b.Consistent) (htidy : b.Tidy) (hx : b.HoldsAt w x) :
    Runs (negate x) b fun n c => c.Balances w n (x.parts .add) [] := by
  rcases parts_cases htidy .add hx.held with hflat | ⟨i, hsum, hreduced⟩
  · rw [hflat]
    exact negate_balances_of_flat hb htidy hx hflat
  · have hparts : ∀ t ∈ x.parts .add, b.HoldsAt w t ∧ t.parts .add = [t] := fun t ht =>
      ⟨hx.parts hb ht, hreduced.flat t ht⟩
    have hmany := hreduced.many
    rw [hsum]
    generalize x.parts .add = ts at hparts hmany
    obtain ⟨t, ts, rfl⟩ := List.exists_cons_of_length_pos (Nat.lt_of_lt_of_le Nat.zero_lt_two hmany)
    rw [List.forall_mem_cons] at hparts
    obtain ⟨⟨ht, hflat⟩, hts⟩ := hparts
    rw [negate, MonadTerms.negate]
    refine Runs.bind (negate_balances_of_flat hb htidy ht hflat) fun n c hle hc hn => ?_
    refine (negateSum_balances hc hn.tidy hn.toHoldsAt fun u hu => ⟨(hts u hu).1.mono hle, (hts u hu).2⟩).imp
      fun r d _ _ hr => ⟨hr.toHoldsAt, hr.tidy, (hr.cons t).trans hn.equates⟩

/-! ### A condition and its negation -/

variable {op : Connective} {p q : Cond} {ps : List Cond}

/-- Negating a condition once more, in the same builder or a later one, adds nothing and gives the same. -/
theorem negate_settles (hb : b.Consistent) (htidy : b.Tidy) (hp : b.Holds p) :
    Runs (negate p) b fun n c => c.Tidy ∧ c.Holds n ∧
      ∀ d : Builder, d.Consistent → c ≤ d → (negate p d).1 = n ∧ (negate p d).2 ≤ d := by
  have hrun := boolNot_runs hb hp
  refine hrun.of_post ⟨negate_tidy p b hb htidy hp, hrun.post.held, fun d hd hle => ?_⟩
  obtain ⟨hsame, htable⟩ := hrun.again d hd hle
  exact ⟨hsame, htable.le⟩

/-- The parts of a condition are those in front, and those of the negations of all conditions of a list. -/
structure Gathers (c : Builder) (op : Connective) (front : List Cond) (ps : List Cond) (r : Cond) : Prop where
  held : c.Holds r
  tidy : c.Tidy
  settled : ∀ d : Builder, d.Consistent → c ≤ d → ∀ p ∈ ps, (negate p d).2 ≤ d
  equates : ∀ d : Builder, d.Consistent → c ≤ d →
    op.Equates (r.condParts op) (front ++ ps.flatMap fun p => (negate p d).1.condParts op)

theorem negateJoin_gathers (op : Connective) : ∀ {ps : List Cond} {b : Builder} {acc : Cond}, b.Consistent → b.Tidy →
    b.Holds acc → (∀ p ∈ ps, b.Holds p) →
    Runs (negateJoin op acc ps) b fun r c => Gathers c op (acc.condParts op) ps r := by
  intro ps
  induction ps with
  | nil =>
      intro b acc hb htidy hacc _
      rw [negateJoin, MonadTerms.negateJoin]
      refine Runs.pure hb ⟨hacc, htidy, fun _ _ _ => List.forall_mem_nil _, fun d _ _ => ?_⟩
      rw [List.flatMap_nil, List.append_nil]
      exact .of_mem_iff fun _ => Iff.rfl
  | cons p ps ih =>
      intro b acc hb htidy hacc hps
      rw [List.forall_mem_cons] at hps
      rw [negateJoin, MonadTerms.negateJoin]
      refine Runs.bind (negate_settles hb htidy hps.1) fun n c hle hc hn => ?_
      obtain ⟨htidy', hn, hagain⟩ := hn
      refine Runs.bind (join_combines hc htidy' (hacc.mono hle) hn op) fun q e hle' he hq => ?_
      obtain ⟨htidy'', hq, hequates⟩ := hq
      refine (ih he htidy'' hq fun r hr => (hps.2 r hr).mono (hle.trans hle')).imp fun r c' hle'' _ hr => ?_
      refine ⟨hr.held, hr.tidy, fun d hd hd' => ?_, fun d hd hd' => ?_⟩
      · exact List.forall_mem_cons.mpr
          ⟨(hagain d hd (hle'.trans (hle''.trans hd'))).2, hr.settled d hd hd'⟩
      · rw [List.flatMap_cons, ← List.append_assoc, (hagain d hd (hle'.trans (hle''.trans hd'))).1]
        exact (hr.equates d hd hd').trans (hequates.append (.of_mem_iff fun _ => Iff.rfl))

/-- The negation of a junction has the parts of the negations of its parts. -/
theorem junction_gathers {i : Nat} (hb : b.Consistent) (htidy : b.Tidy) (h : b.Holds (.junction i op ps)) :
    Runs (negate (.junction i op ps)) b fun r c => Gathers c op.dual [] ps r := by
  obtain ⟨p, ps, rfl⟩ := List.exists_cons_of_ne_nil (hb.proper h).1
  have hargs : ∀ q ∈ p :: ps, b.Holds q := hb.children h
  rw [List.forall_mem_cons] at hargs
  rw [negate, MonadTerms.negate]
  refine Runs.bind (negate_settles hb htidy hargs.1) fun n c hle hc hn => ?_
  obtain ⟨htidy', hn, hagain⟩ := hn
  refine (negateJoin_gathers op.dual hc htidy' hn fun q hq => (hargs.2 q hq).mono hle).imp fun r c' hle' _ hr => ?_
  refine ⟨hr.held, hr.tidy, fun d hd hd' => ?_, fun d hd hd' => ?_⟩
  · exact List.forall_mem_cons.mpr ⟨(hagain d hd (hle'.trans hd')).2, hr.settled d hd hd'⟩
  · rw [List.nil_append, List.flatMap_cons, (hagain d hd (hle'.trans hd')).1]
    exact hr.equates d hd hd'

/-- Negating the negation, now or later, gives the condition back, and the negation of what is not taken apart by a
connective is not taken apart by its dual. -/
structure Undone (b : Builder) (p : Cond) : Prop where
  back : ∀ d : Builder, d.Consistent → d.Tidy → (negate p b).2 ≤ d → (negate (negate p b).1 d).1 = p
  flat : ∀ op : Connective, p.condParts op = [p] → (negate p b).1.condParts op.dual = [(negate p b).1]

/-- Only constants have constants for negations. -/
theorem Undone.isConst (h : Undone b p) (hb : b.Consistent) (htidy : b.Tidy) (hle : (negate p b).2 ≤ b)
    (hp : p.isConst = false) : (negate p b).1.isConst = false := by
  cases hv : (negate p b).1.truth? with
  | none => exact truth?_eq_none_iff.mp hv
  | some v =>
      have hback := h.back b hb htidy hle
      rw [eq_truth_of_truth? hv, negate, MonadTerms.negate, truth_eq] at hback
      have hvalue := truth?_truth hb (!v)
      rw [hback, truth?_eq_none_iff.mpr hp] at hvalue
      cases hvalue

theorem undone_truth {i : Nat} {v : Bool} (hb : b.Consistent) (hp : b.Holds (.truth i v)) :
    Undone b (.truth i v) := by
  have hrun := truth_runs hb (!v) []
  have hnot : (negate (.truth i v) b).1 = .truth (negate (.truth i v) b).1.id (!v) := by
    rw [negate, MonadTerms.negate]
    exact intern_eq_withId hb (d := .truth 0 (!v)) trivial
  refine ⟨fun d hd _ hle => ?_, fun op _ => ?_⟩
  · rw [negate, MonadTerms.negate] at hle
    have hp' : d.Holds (.truth i v) := (hp.mono hrun.grows).mono hle
    rw [hnot, negate, MonadTerms.negate, Bool.not_not]
    exact (intern_again hd hp').1
  · rw [hnot]
    rfl

theorem undone_not {i : Nat} (hb : b.Consistent) (htidy : b.Tidy) (hp : b.Holds (.not i q)) :
    Undone b (.not i q) := by
  obtain ⟨hnot, hjunction, hcompare⟩ := htidy.term hp
  have hstuck := negate_of_stuck (hb.proper hp) hnot hjunction hcompare
  refine ⟨fun d hd _ hle => ?_, fun op _ => ?_⟩
  · rw [negate, MonadTerms.negate] at hle ⊢
    show (negate q d).1 = _
    rw [hstuck]
    exact (intern_again hd (hp.mono hle)).1
  · rw [negate, MonadTerms.negate]
    show q.condParts op.dual = [q]
    cases q with
    | junction j o qs => exact absurd rfl (hjunction j o qs)
    | _ => rfl

theorem undone_compare {i : Nat} {o : CompareOp} (hb : b.Consistent) (hp : b.Holds (.compare i o x y)) :
    Undone b (.compare i o x y) := by
  have hchildren := hb.children hp
  have hrun := boolNot_runs hb hp
  cases hop : o.opposite? with
  | some o' =>
      have hnot : (negate (.compare i o x y) b).1 = .compare (negate (.compare i o x y) b).1.id o' x y := by
        rw [negate, MonadTerms.negate, hop]
        exact intern_eq_withId hb (d := .compare 0 o' x y) hchildren
      refine ⟨fun d hd _ hle => ?_, fun op _ => ?_⟩
      · rw [hnot, negate, MonadTerms.negate, CompareOp.opposite_symm hop]
        exact (intern_again hd ((hp.mono hrun.grows).mono hle)).1
      · rw [hnot]
        rfl
  | none =>
      have hnot : (negate (.compare i o x y) b).1 = .not (negate (.compare i o x y) b).1.id (.compare i o x y) := by
        rw [negate, MonadTerms.negate, hop]
        exact intern_eq_withId hb (d := .not 0 (.compare i o x y)) hp
      refine ⟨fun d _ _ _ => ?_, fun op _ => ?_⟩
      · rw [hnot, negate, MonadTerms.negate]
        rfl
      · rw [hnot]
        rfl

section Junction

variable {i : Nat} (hb : b.Consistent) (htidy : b.Tidy) (h : b.Holds (.junction i op ps))
  (ih : ∀ p ∈ ps, ∀ d : Builder, d.Consistent → d.Tidy → d.Holds p → Undone d p)
  (hd : d.Consistent) (htidy' : d.Tidy) (hle : (negate (.junction i op ps) b).2 ≤ d)

include hb htidy h ih hd htidy' hle

theorem parts_undone : ∀ p ∈ ps, Undone d p ∧ (negate p d).2 ≤ d := by
  intro p hp
  have hrun := junction_gathers hb htidy h
  have hheld : d.Holds p := (hb.children h p hp).mono (hrun.grows.trans hle)
  exact ⟨ih p hp d hd htidy' hheld, hrun.post.settled d hd hle p hp⟩

/-- The negation of a junction is the dual junction of the negations of its parts: these are different, since they
can be undone. -/
theorem negate_junction :
    ∃ j qs, (negate (.junction i op ps) b).1 = .junction j op.dual qs ∧
      ∀ q, q ∈ qs ↔ ∃ p ∈ ps, (negate p d).1 = q := by
  have hrun := junction_gathers hb htidy h
  have hparts := parts_undone hb htidy h ih hd htidy' hle
  obtain ⟨hmany, hsorted, hflat⟩ := htidy.term h
  have hconst : ∀ p ∈ ps, (negate p d).1.isConst = false := fun p hp =>
    (hparts p hp).1.isConst hd htidy' (hparts p hp).2 ((hb.proper h).2 p hp)
  have hmem : ∀ q, q.isConst = false →
      (q ∈ (negate (.junction i op ps) b).1.condParts op.dual ↔ ∃ p ∈ ps, (negate p d).1 = q) := fun q hq => by
    have hmap : (ps.flatMap fun p => (negate p d).1.condParts op.dual) = ps.map fun p => (negate p d).1 := by
      rw [List.map_eq_flatMap]
      exact List.flatMap_congr fun p hp => (hparts p hp).1.flat op (hflat p hp)
    have hequates := hrun.post.equates d hd hle
    rw [List.nil_append, hmap] at hequates
    have hnot : ¬op.dual.Decided (ps.map fun p => (negate p d).1) :=
      Connective.not_decided (List.forall_mem_map.mpr hconst)
    rw [← hequates.symm.parts hnot q hq, List.mem_map]
  rcases condParts_cases hrun.post.tidy op.dual hrun.post.held with hone | ⟨j, hjunction, -, -⟩
  · -- All the negations would be one, and so would be the parts.
    have hsame : ∀ p ∈ ps, (negate (negate (.junction i op ps) b).1 d).1 = p := fun p hp => by
      have hp' := (hmem _ (hconst p hp)).mpr ⟨p, hp, rfl⟩
      rw [hone, List.mem_singleton] at hp'
      rw [← hp']
      exact (hparts p hp).1.back d hd htidy' (hparts p hp).2
    have hfirst : 0 < ps.length := by omega
    have hsecond : 1 < ps.length := by omega
    have heq : ps[0] = ps[1] := (hsame _ (List.getElem_mem hfirst)).symm.trans (hsame _ (List.getElem_mem hsecond))
    have hlt := List.pairwise_iff_getElem.mp hsorted 0 1 hfirst hsecond Nat.zero_lt_one
    exact absurd (congrArg Term.id heq) hlt.ne
  · have hjconst : (negate (.junction i op ps) b).1.isConst = false := by
      rw [hjunction]
      rfl
    refine ⟨j, _, hjunction, fun q => ⟨fun hq => (hmem q ?_).mp hq, fun hex => ?_⟩⟩
    · exact (hrun.post.held.condParts hrun.consistent hjconst hq).2
    · obtain ⟨p, hp, hq⟩ := hex
      exact (hmem q (hq ▸ hconst p hp)).mpr ⟨p, hp, hq⟩

theorem negate_negate_junction : (negate (negate (.junction i op ps) b).1 d).1 = .junction i op ps := by
  have hrun := junction_gathers hb htidy h
  have hparts := parts_undone hb htidy h ih hd htidy' hle
  obtain ⟨-, -, hflat⟩ := htidy.term h
  obtain ⟨j, qs, hn, hmem⟩ := negate_junction hb htidy h ih hd htidy' hle
  have hheld : d.Holds (.junction j op.dual qs) := hn ▸ hrun.post.held.mono hle
  have hrun' := junction_gathers hd htidy' hheld
  rw [hn]
  have hback : ∀ p ∈ ps, (negate (negate p d).1 (negate (.junction j op.dual qs) d).2).1 = p := fun p hp =>
    (hparts p hp).1.back _ hrun'.consistent hrun'.post.tidy ((hparts p hp).2.trans hrun'.grows)
  have hequates := hrun'.post.equates _ hrun'.consistent le_rfl
  rw [Connective.dual_dual, List.nil_append] at hequates
  refine eq_of_cond_equates hrun'.consistent hrun'.post.tidy hrun'.post.held
    (h.mono (hrun.grows.trans (hle.trans hrun'.grows))) (hequates.trans (.of_mem_iff fun q => ?_))
  rw [condParts, if_pos rfl, List.mem_flatMap]
  refine ⟨fun hex => ?_, fun hq => ⟨(negate q d).1, (hmem _).mpr ⟨q, hq, rfl⟩, ?_⟩⟩
  · obtain ⟨n, hn, hq⟩ := hex
    obtain ⟨p, hp, rfl⟩ := (hmem n).mp hn
    rw [hback p hp, hflat p hp, List.mem_singleton] at hq
    exact hq ▸ hp
  · rw [hback q hq, hflat q hq]
    exact List.mem_singleton_self q

end Junction

theorem undone_junction {i : Nat} (hb : b.Consistent) (htidy : b.Tidy) (h : b.Holds (.junction i op ps))
    (ih : ∀ p ∈ ps, ∀ d : Builder, d.Consistent → d.Tidy → d.Holds p → Undone d p) :
    Undone b (.junction i op ps) := by
  have hrun := junction_gathers hb htidy h
  refine ⟨fun d hd htidy' hle => negate_negate_junction hb htidy h ih hd htidy' hle, fun o ho => ?_⟩
  have hne : op ≠ o := by
    rintro rfl
    have hmany := (htidy.term h).1
    rw [condParts, if_pos rfl] at ho
    rw [ho, List.length_singleton] at hmany
    omega
  obtain ⟨j, qs, hn, -⟩ := negate_junction hb htidy h ih hrun.consistent hrun.post.tidy le_rfl
  rw [hn, condParts, if_neg]
  exact fun hdual => hne (by rw [← op.dual_dual, hdual, o.dual_dual])

/-- What is shown of all terms: nothing of words. -/
def Undoable : (k : Ty) → Term k → Prop
  | .word, _ => True
  | .bool, p => ∀ b : Builder, b.Consistent → b.Tidy → b.Holds p → Undone b p

theorem undoable {k : Ty} (t : Term k) : Undoable k t := by
  induction t using Term.induct with
  | truth i v => exact fun b hb _ hp => undone_truth hb hp
  | not i q => exact fun b hb htidy hp => undone_not hb htidy hp
  | compare i o x y => exact fun b hb _ hp => undone_compare hb hp
  | junction i op ps ih => exact fun b hb htidy hp => undone_junction hb htidy hp ih
  | _ => trivial

/-! ### Bitwise negation -/

/-- Nothing else can be done with a word that is no constant and is not negated. -/
theorem bitNot_of_atom (hconst : x.isConst = false) (hnot : ∀ i t, x ≠ .unary i .not t) :
    bitNot x = intern (.unary 0 .not x) := by
  unfold bitNot MonadTerms.bitNot
  split
  · cases hconst
  · exact absurd rfl (hnot _ _)
  · rfl

theorem bitNot_bitNot (hb : b.Consistent) (htidy : b.Tidy) (hx : b.Holds x) (hd : d.Consistent)
    (hle : (bitNot x b).2 ≤ d) : (bitNot (bitNot x b).1 d).1 = x := by
  have hrun := bitNot_runs hb (w := x.width) ⟨hx, rfl⟩
  have hx' : d.Holds x := (hx.mono hrun.grows).mono hle
  by_cases hconst : ∃ i a, x = .const i a
  · obtain ⟨i, a, rfl⟩ := hconst
    have hnot : (bitNot (.const i a) b).1 = .const (bitNot (.const i a) b).1.id a.not :=
      intern_eq_withId hb (d := .const 0 a.not) trivial
    rw [hnot]
    show (const a.not.not d).1 = .const i a
    rw [Word.not_not]
    exact (intern_again hd hx').1
  by_cases hneg : ∃ i y, x = .unary i .not y
  · obtain ⟨i, y, rfl⟩ := hneg
    show (bitNot y d).1 = .unary i .not y
    rw [bitNot_of_atom (hb.proper hx) (htidy.term hx)]
    exact (intern_again hd hx').1
  · have hatom : bitNot x = intern (.unary 0 .not x) := by
      refine bitNot_of_atom (const?_eq_none_iff.mp ?_) fun i y h => hneg ⟨i, y, h⟩
      exact Option.eq_none_iff_forall_ne_some.mpr fun a ha => hconst ⟨_, a, eq_const_of_const? ha⟩
    rw [hatom, intern_eq_withId hb (d := .unary 0 .not x) hx]
    rfl

end Build

/-! ### Programs of requests -/

/-- A request as a step of a program, which ends at the first request that is refused. -/
def Request.ask {k : Ty} (r : Request k) : ExceptT OperandError Build (Term k) := r.run

namespace Build

open Term NaryOp

variable {α β : Type} {act : ExceptT OperandError Build α} {x y z : Term .word}

/-- What a program of requests comes to. -/
def answer (act : ExceptT OperandError Build α) (b : Builder) : Except OperandError α := (act.run b).1

/-- No request of the program is refused, and it ends with `post`. -/
def Answers (act : ExceptT OperandError Build α) (b : Builder) (post : α → Builder → Prop) : Prop :=
  Runs act.run b fun a c => ∃ r, a = .ok r ∧ post r c

theorem Answers.bind {next : α → ExceptT OperandError Build β} {mid : α → Builder → Prop}
    {post : β → Builder → Prop} (h : Answers act b mid)
    (hnext : ∀ r c, b ≤ c → c.Consistent → mid r c → Answers (next r) c post) : Answers (act >>= next) b post := by
  show Runs (act.run >>= ExceptT.bindCont next) b _
  refine Runs.bind h fun a c hle hc ha => ?_
  obtain ⟨r, rfl, hr⟩ := ha
  exact hnext r c hle hc hr

theorem Answers.pure (hb : b.Consistent) {r : α} {post : α → Builder → Prop} (h : post r b) :
    Answers (Pure.pure r) b post :=
  Runs.pure hb ⟨r, rfl, h⟩

theorem Answers.answer_eq {r : α} (h : Answers act b fun r' _ => r' = r) : answer act b = .ok r := by
  obtain ⟨r', hr, rfl⟩ := h.post
  exact hr

section Words

variable (hb : b.Consistent) (htidy : b.Tidy) (hx : b.HoldsAt w x) (hy : b.HoldsAt w y)

include hb htidy hx

theorem neg_answers : Answers (Request.unary .neg x).ask b fun n c => c.Balances w n (x.parts .add) [] :=
  ok_runs (negate_balances hb htidy hx)

include hy

theorem add_answers :
    Answers (Request.nary .add x y).ask b fun s c => c.Balances w s [] (x.parts .add ++ y.parts .add) :=
  (checked_runs hb fun _ => add_balances hb htidy hx hy).imp fun _ _ _ _ h => h (hx.width.trans hy.width.symm)

theorem sub_answers : Answers (Request.sub x y).ask b fun r c => c.Balances w r (y.parts .add) (x.parts .add) := by
  refine Runs.bind (negate_balances hb htidy hy) fun n c hle hc hn => ?_
  refine (add_answers hc hn.tidy (hx.mono hle) hn.toHoldsAt).imp fun a d _ _ ha => ?_
  obtain ⟨r, rfl, hr⟩ := ha
  refine ⟨r, rfl, hr.toHoldsAt, hr.tidy, ?_⟩
  calc
    NaryOp.add.Equates w (r.parts .add ++ y.parts .add) (x.parts .add ++ n.parts .add ++ y.parts .add) :=
      hr.parts.append (.refl .add w _)
    NaryOp.add.Equates w _ (x.parts .add ++ []) := by
      rw [List.append_assoc]
      exact (NaryOp.Equates.refl .add w _).append hn.equates
    NaryOp.add.Equates w _ (x.parts .add) := by
      rw [List.append_nil]
      exact .refl .add w _

end Words

/-- A word that comes to nothing is zero. -/
theorem const?_of_balances (hb : b.Consistent) (hz : b.Balances w z [] []) : z.const? = some (.zero w) := by
  have hrun := const_runs hb (.zero w)
  have htidy' : (const (.zero w) b).2.Tidy := intern_tidy hz.tidy trivial
  have hzero : (const (.zero w) b).1.const? = some (.zero w) :=
    congrArg const? (intern_eq_withId hb (d := .const 0 (.zero w)) trivial)
  have hequates : NaryOp.add.Equates w ((const (.zero w) b).1.parts .add ++ []) [] := by
    rw [List.append_nil]
    exact const_equates hb (Word.bits_zero w).symm fun _ => rfl
  rw [(hz.mono hrun.grows htidy').unique hrun.consistent ⟨hrun.post.1.toHoldsAt, htidy', hequates⟩, hzero]

section Laws

variable (hb : b.Consistent) (htidy : b.Tidy) (hx : b.HoldsAt w x) (hy : b.HoldsAt w y)

include hb htidy hx

theorem neg_neg_answers :
    Answers (do (Request.unary .neg (← (Request.unary .neg x).ask)).ask) b fun r _ => r = x := by
  refine Answers.bind (neg_answers hb htidy hx) fun n c hle hc hn => ?_
  refine (neg_answers hc hn.tidy hn.toHoldsAt).imp fun a d hle' hd ha => ?_
  obtain ⟨r, rfl, hr⟩ := ha
  have hswap : NaryOp.add.Equates w (x.parts .add ++ n.parts .add) [] :=
    (NaryOp.Equates.of_perm .add w List.perm_append_comm).trans hn.equates
  exact ⟨r, rfl, hr.unique hd ⟨hx.mono (hle.trans hle'), hr.tidy, hswap⟩⟩

theorem sub_self_answers : Answers (Request.sub x x).ask b fun z _ => z.const? = some (.zero w) := by
  refine (sub_answers hb htidy hx hx).imp fun a c _ hc ha => ?_
  obtain ⟨z, rfl, hz⟩ := ha
  refine ⟨z, rfl, const?_of_balances hc ⟨hz.toHoldsAt, hz.tidy, ?_⟩⟩
  rw [List.append_nil]
  exact NaryOp.Equates.cancel_right hz.equates

theorem add_neg_answers :
    Answers (do (Request.nary .add x (← (Request.unary .neg x).ask)).ask) b fun z _ => z.const? = some (.zero w) := by
  refine Answers.bind (neg_answers hb htidy hx) fun n c hle hc hn => ?_
  refine (add_answers hc hn.tidy (hx.mono hle) hn.toHoldsAt).imp fun a d _ hd ha => ?_
  obtain ⟨z, rfl, hz⟩ := ha
  have hswap : NaryOp.add.Equates w (x.parts .add ++ n.parts .add) [] :=
    (NaryOp.Equates.of_perm .add w List.perm_append_comm).trans hn.equates
  exact ⟨z, rfl, const?_of_balances hd ⟨hz.toHoldsAt, hz.tidy, hz.equates.trans hswap⟩⟩

include hy

theorem sub_add_answers :
    Answers (do (Request.nary .add (← (Request.sub x y).ask) y).ask) b fun r _ => r = x := by
  refine Answers.bind (sub_answers hb htidy hx hy) fun n c hle hc hn => ?_
  refine (add_answers hc hn.tidy hn.toHoldsAt (hy.mono hle)).imp fun a d hle' hd ha => ?_
  obtain ⟨r, rfl, hr⟩ := ha
  have hsum : NaryOp.add.Equates w (x.parts .add ++ []) (n.parts .add ++ y.parts .add) := by
    rw [List.append_nil]
    exact hn.equates.symm
  exact ⟨r, rfl, hr.unique hd ⟨hx.mono (hle.trans hle'), hr.tidy, hsum⟩⟩

theorem neg_add_answers :
    Answers (do
      let n ← (Request.unary .neg (← (Request.nary .add x y).ask)).ask
      let m ← (Request.nary .add (← (Request.unary .neg x).ask) (← (Request.unary .neg y).ask)).ask
      return (n, m)) b fun r _ => ∃ n, r = (n, n) := by
  refine Answers.bind (add_answers hb htidy hx hy) fun s c₁ hle₁ hc₁ hs => ?_
  refine Answers.bind (neg_answers hc₁ hs.tidy hs.toHoldsAt) fun n c₂ hle₂ hc₂ hn => ?_
  have hx₂ := hx.mono (hle₁.trans hle₂)
  refine Answers.bind (neg_answers hc₂ hn.tidy hx₂) fun n₁ c₃ hle₃ hc₃ hn₁ => ?_
  have hy₃ := hy.mono (hle₁.trans (hle₂.trans hle₃))
  refine Answers.bind (neg_answers hc₃ hn₁.tidy hy₃) fun n₂ c₄ hle₄ hc₄ hn₂ => ?_
  refine Answers.bind (add_answers hc₄ hn₂.tidy (hn₁.toHoldsAt.mono hle₄) hn₂.toHoldsAt) fun m c₅ hle₅ hc₅ hm => ?_
  have hbalance : NaryOp.add.Equates w (m.parts .add ++ s.parts .add) [] := by
    calc
      NaryOp.add.Equates w (m.parts .add ++ s.parts .add)
          (n₁.parts .add ++ n₂.parts .add ++ (x.parts .add ++ y.parts .add)) := hm.parts.append hs.parts
      NaryOp.add.Equates w _ (n₁.parts .add ++ x.parts .add ++ (n₂.parts .add ++ y.parts .add)) := by
        refine .of_perm .add w ?_
        simp only [List.append_assoc]
        exact (List.perm_append_comm_assoc _ _ _).append_left _
      NaryOp.add.Equates w _ ([] ++ []) := hn₁.equates.append hn₂.equates
  have heq : n = m := (hn.mono (hle₃.trans (hle₄.trans hle₅)) hm.tidy).unique hc₅ ⟨hm.toHoldsAt, hm.tidy, hbalance⟩
  exact Answers.pure hc₅ ⟨n, by rw [heq]⟩

end Laws

theorem answer_not_not (hb : b.Consistent) (htidy : b.Tidy) (hx : b.Holds x) :
    answer (do (Request.unary .not (← (Request.unary .not x).ask)).ask) b = .ok x := by
  have hrun := bitNot_runs hb (w := x.width) ⟨hx, rfl⟩
  exact congrArg Except.ok (bitNot_bitNot hb htidy hx hrun.consistent le_rfl)

theorem answer_boolNot_boolNot (hb : b.Consistent) (htidy : b.Tidy) {p : Cond} (hp : b.Holds p) :
    answer (do (Request.boolNot (← (Request.boolNot p).ask)).ask) b = .ok p := by
  have hrun := negate_settles hb htidy hp
  exact congrArg Except.ok ((undoable p b hb htidy hp).back _ hrun.consistent hrun.post.1 le_rfl)

end Build

open Build in
/-- Taking the opposite of an opposite, and adding what was subtracted, answers with the word itself, under the
number that it has; a word less itself and a word plus its opposite are the constant zero; the opposite of a sum is
the sum of the opposites; and the negation of a negation is the condition itself. -/
theorem inverses_undo_operations {scatter : List Nat → Nat} {b : Builder} (hb : Evolves { scatter } b) :
    (∀ (w : Nat) (x y : Term .word), b.HoldsAt w x → b.HoldsAt w y →
      answer (do (Request.unary .neg (← (Request.unary .neg x).ask)).ask) b = .ok x ∧
      answer (do (Request.unary .not (← (Request.unary .not x).ask)).ask) b = .ok x ∧
      answer (do (Request.nary .add (← (Request.sub x y).ask) y).ask) b = .ok x ∧
      (∃ z, answer (Request.sub x x).ask b = .ok z ∧ z.const? = some (.zero w)) ∧
      (∃ z, answer (do (Request.nary .add x (← (Request.unary .neg x).ask)).ask) b = .ok z ∧
        z.const? = some (.zero w)) ∧
      ∃ n, answer (do
        let n ← (Request.unary .neg (← (Request.nary .add x y).ask)).ask
        let m ← (Request.nary .add (← (Request.unary .neg x).ask) (← (Request.unary .neg y).ask)).ask
        return (n, m)) b = .ok (n, n)) ∧
    ∀ p : Cond, b.Holds p → answer (do (Request.boolNot (← (Request.boolNot p).ask)).ask) b = .ok p := by
  have htidy := hb.tidy consistent_empty tidy_empty
  have hb := hb.consistent
  refine ⟨fun w x y hx hy => ?_, fun p hp => answer_boolNot_boolNot hb htidy hp⟩
  refine ⟨(neg_neg_answers hb htidy hx).answer_eq, answer_not_not hb htidy hx.held,
    (sub_add_answers hb htidy hx hy).answer_eq, (sub_self_answers hb htidy hx).post,
    (add_neg_answers hb htidy hx).post, ?_⟩
  obtain ⟨_, hr, n, rfl⟩ := (neg_add_answers hb htidy hx hy).post
  exact ⟨n, hr⟩

/-- A difference of two symbols, and a conjunction of a comparison that has no opposite with its negation, in a
builder whose fingerprints all collide. -/
theorem inverses_undo_operations_of_collisions :
    let x : Term .word := .symbol 1 "x" 8
    let y : Term .word := .symbol 2 "y" 8
    let p : Cond := .compare 3 .eq x y
    let q : Cond := .not 4 p
    let r : Cond := .junction 5 .and [p, q]
    let b₁ := ((Request.notEqual x y).run twoSymbols).2
    let b := ((Request.join .and p q).run b₁).2
    Evolves { scatter := fun _ => 0 } b ∧ b.HoldsAt 8 x ∧ b.HoldsAt 8 y ∧ b.Holds r ∧
      Build.answer (do (Request.unary .neg (← (Request.unary .neg x).ask)).ask) b = .ok x ∧
      Build.answer (do (Request.nary .add (← (Request.sub x y).ask) y).ask) b = .ok x ∧
      Build.answer (do (Request.boolNot (← (Request.boolNot r).ask)).ask) b = .ok r := by
  intro x y p q r b₁ b
  obtain ⟨h₀, hx₀, hy₀⟩ := twoSymbols_spec
  have h₁ : Evolves { scatter := fun _ => 0 } b₁ := h₀.request (.notEqual x y) ⟨hx₀, hy₀⟩
  have hle₁ : twoSymbols ≤ b₁ := (Request.runs h₀.consistent (.notEqual x y) ⟨hx₀, hy₀⟩).grows
  have hq₁ : b₁.Holds q := Request.holds_of_run h₀.consistent ⟨hx₀, hy₀⟩ rfl rfl
  have hp₁ : b₁.Holds p := h₁.consistent.children hq₁
  have h : Evolves { scatter := fun _ => 0 } b := h₁.request (.join .and p q) ⟨hp₁, hq₁⟩
  have hle : b₁ ≤ b := (Request.runs h₁.consistent (.join .and p q) ⟨hp₁, hq₁⟩).grows
  have hx : b.HoldsAt 8 x := ⟨hx₀.mono (hle₁.trans hle), rfl⟩
  have hy : b.HoldsAt 8 y := ⟨hy₀.mono (hle₁.trans hle), rfl⟩
  have hr : b.Holds r := Request.holds_of_run h₁.consistent ⟨hp₁, hq₁⟩ trivial rfl
  obtain ⟨hwords, hconds⟩ := inverses_undo_operations h
  obtain ⟨hneg, -, hsub, -⟩ := hwords 8 x y hx hy
  exact ⟨h, hx, hy, hr, hneg, hsub, hconds r hr⟩

end Pathwise
