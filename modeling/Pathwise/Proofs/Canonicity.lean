import Pathwise.Proofs.OperandSums

/-! Canonical terms. In a tidy builder a word is determined by what its parts come to under an operation: where
nothing absorbs, the parts that are no constants are a permutation of one another, there is at most one constant,
and the parts are sorted by number. The constructors answer with a term whose parts come to what the parts of the
operands come to together, whichever of their rules applies. -/

namespace Pathwise

open Builder

variable {w : Nat} {b c : Builder}

/-! ### Terms are determined by what their parts come to -/

namespace Term

open NaryOp

variable {op : NaryOp} {r s t : Term .word}

theorem parts_of_const? {a : Word} (h : t.const? = some a) : t.parts op = [t] := by
  rw [eq_const_of_const? h]
  rfl

/-- A term is its only part, or its parts are reduced operands. -/
theorem parts_cases (htidy : b.Tidy) (op : NaryOp) (hr : b.Holds r) :
    r.parts op = [r] ∨ ∃ i, r = .nary i op (r.parts op) ∧ op.Reduced (r.parts op) := by
  cases r with
  | nary i o args =>
      by_cases hop : o = op
      · subst hop
        rw [parts, if_pos rfl]
        exact Or.inr ⟨i, rfl, htidy.term hr⟩
      · rw [parts, if_neg hop]
        exact Or.inl rfl
  | _ => exact Or.inl rfl

theorem exists_const? (h : t.isConst = true) : ∃ a, t.const? = some a := by
  cases hc : t.const? with
  | none =>
      rw [const?_eq_none_iff.mp hc] at h
      cases h
  | some a => exact ⟨a, rfl⟩

/-- Constants of one width and of the same bits are one term. -/
theorem eq_of_const?_bits (hb : b.Consistent) (hr : b.HoldsAt w r) (hs : b.HoldsAt w s) {a a' : Word}
    (ha : r.const? = some a) (ha' : s.const? = some a') (h : a.bits w = a'.bits w) : r = s := by
  have heq : a = a' := Build.eq_of_bits ((width_of_const? ha).trans hr.width) ((width_of_const? ha').trans hs.width) h
  refine hb.shared hr.held hs.held ?_
  rw [eq_const_of_const? ha, eq_const_of_const? ha', heq]
  exact decide_eq_true rfl

section Parts

variable (hb : b.Consistent) (htidy : b.Tidy)

include htidy

theorem parts_sorted (op : NaryOp) (hr : b.Holds r) : (r.parts op).Pairwise fun t u => t.id ≤ u.id := by
  rcases parts_cases htidy op hr with h | ⟨i, -, hreduced⟩
  · rw [h]
    exact List.pairwise_singleton _ _
  · exact hreduced.sorted

theorem parts_apart (op : NaryOp) (hr : b.Holds r) :
    (others (r.parts op)).Pairwise fun t u => op.clash t u = false := by
  rcases parts_cases htidy op hr with h | ⟨i, -, hreduced⟩
  · rw [h]
    exact (List.pairwise_singleton _ _).filter _
  · exact hreduced.apart

include hb

/-- The constants among the parts of a term that is none itself: no one, or one that is neither neutral nor
absorbs. -/
theorem consts_parts (op : NaryOp) (hr : b.HoldsAt w r) (hconst : r.isConst = false) :
    (r.parts op).filter isConst = [] ∧ op.constant w (r.parts op) = op.neutral w ∨
      ∃ t a, (r.parts op).filter isConst = [t] ∧ t.const? = some a ∧ op.constant w (r.parts op) = a.bits w ∧
        a.bits w ≠ op.neutral w ∧ ¬op.Absorbs (a.bits w) := by
  rcases parts_cases htidy op hr.held with h | ⟨i, -, hreduced⟩
  · have hnone : ∀ t ∈ [r], t.isConst = false := List.forall_mem_singleton.mpr hconst
    rw [h]
    exact Or.inl ⟨List.filter_eq_nil_iff.mpr fun t ht => by simp [hnone t ht], op.constant_of_forall w hnone⟩
  · have hmem : ∀ t ∈ (r.parts op).filter isConst, t ∈ r.parts op ∧ t.isConst = true := fun t ht =>
      List.mem_filter.mp ht
    have hsplit : op.constant w (r.parts op) =
        op.bits (op.constant w ((r.parts op).filter isConst)) (op.neutral w) := by
      have hperm := List.filter_append_perm isConst (r.parts op)
      rw [← op.constant_perm w hperm, constant_append]
      exact congrArg _ (op.constant_of_forall w fun t ht => (mem_others.mp ht).2)
    have hsingle := hreduced.single.filter isConst
    match hfilter : (r.parts op).filter isConst, hsingle with
    | [], _ =>
        rw [hfilter] at hsplit
        exact Or.inl ⟨rfl, hsplit.trans (op.bits_neutral _)⟩
    | [t], _ =>
        obtain ⟨hpart, htconst⟩ := hmem t (hfilter ▸ List.mem_singleton_self t)
        obtain ⟨a, ha⟩ := exists_const? htconst
        have hwidth : a.width = w := (width_of_const? ha).trans (hr.parts hb hpart).width
        obtain ⟨hunit, habsorbs⟩ := hreduced.constant t hpart a ha
        rw [hwidth] at hunit habsorbs
        refine Or.inr ⟨t, a, rfl, ha, ?_, fun hneutral => hunit ?_, habsorbs⟩
        · rw [hsplit, hfilter, op.constant_singleton w ha, op.bits_neutral]
        · exact Build.eq_of_bits hwidth (op.width_unit w) (hneutral.trans (op.bits_unit w).symm)
    | t :: u :: _, hpair =>
        have htconst := (hmem t (hfilter ▸ List.mem_cons_self)).2
        have huconst := (hmem u (hfilter ▸ List.mem_cons_of_mem t List.mem_cons_self)).2
        have hone := (List.pairwise_cons.mp hpair).1 u List.mem_cons_self
        rw [htconst, huconst] at hone
        cases hone <;> contradiction

theorem not_absorbs_parts (hw : ¬op.Absorbs (op.neutral w)) (hr : b.HoldsAt w r) (hconst : r.isConst = false) :
    ¬op.Absorbs (op.constant w (r.parts op)) := by
  rcases consts_parts hb htidy op hr hconst with ⟨-, h⟩ | ⟨t, a, -, -, h, -, habsorbs⟩
  · rwa [h]
  · rwa [h]

theorem others_parts_ne_nil (hr : b.Holds r) (hconst : r.isConst = false) : others (r.parts op) ≠ [] := by
  rcases parts_cases htidy op hr with h | ⟨i, hnary, -⟩
  · rw [h]
    exact List.ne_nil_of_mem (mem_others.mpr ⟨List.mem_singleton_self r, hconst⟩)
  · rw [hnary] at hr
    obtain ⟨-, t, ht, htconst⟩ := hb.proper hr
    exact List.ne_nil_of_mem (mem_others.mpr ⟨ht, htconst⟩)

/-- Where nothing absorbs, terms whose parts come to the same have the same other parts. -/
theorem others_parts_perm (hr : b.HoldsAt w r) (hs : b.HoldsAt w s) (h : op.Equates w (r.parts op) (s.parts op))
    (hnot : ¬op.Absorbs (op.constant w (r.parts op))) : (others (r.parts op)).Perm (others (s.parts op)) := by
  have hheld : ∀ {t : Term .word}, b.HoldsAt w t → ∀ u ∈ others (t.parts op), b.Holds u := fun ht u hu =>
    (ht.parts hb (mem_others.mp hu).1).held
  exact perm_of_tally hb (hheld hr) (hheld hs) (parts_apart htidy op hr.held) (parts_apart htidy op hs.held)
    (h.tally hnot)

/-- Terms that are no constants have the same parts if these come to the same. -/
theorem parts_eq_of_equates (hw : ¬op.Absorbs (op.neutral w)) (hr : b.HoldsAt w r) (hs : b.HoldsAt w s)
    (h : op.Equates w (r.parts op) (s.parts op)) (hrconst : r.isConst = false) (hsconst : s.isConst = false) :
    r.parts op = s.parts op := by
  have hothers := others_parts_perm hb htidy hr hs h (not_absorbs_parts hb htidy hw hr hrconst)
  have hconsts : (r.parts op).filter isConst = (s.parts op).filter isConst := by
    rcases consts_parts hb htidy op hr hrconst with ⟨hnil, hneutral⟩ | ⟨t, a, hone, ha, hbits, hne, -⟩ <;>
      rcases consts_parts hb htidy op hs hsconst with ⟨hnil', hneutral'⟩ | ⟨t', a', hone', ha', hbits', hne', -⟩
    · rw [hnil, hnil']
    · exact absurd (hbits'.symm.trans (h.constant.symm.trans hneutral)) hne'
    · exact absurd (hbits.symm.trans (h.constant.trans hneutral')) hne
    · have hmem : t ∈ r.parts op := (List.mem_filter.mp (hone ▸ List.mem_singleton_self t)).1
      have hmem' : t' ∈ s.parts op := (List.mem_filter.mp (hone' ▸ List.mem_singleton_self t')).1
      rw [hone, hone', eq_of_const?_bits hb (hr.parts hb hmem) (hs.parts hb hmem') ha ha'
        (hbits.symm.trans (h.constant.trans hbits'))]
  have hperm : (r.parts op).Perm (s.parts op) := by
    refine (List.filter_append_perm isConst _).symm.trans (List.Perm.trans ?_ (List.filter_append_perm isConst _))
    rw [hconsts]
    exact hothers.append_left _
  refine hperm.eq_of_pairwise (fun t u ht hu hle hge => ?_) (parts_sorted htidy op hr.held)
    (parts_sorted htidy op hs.held)
  exact hb.eq_of_id (hr.parts hb ht).held (hs.parts hb hu).held (le_antisymm hle hge)

/-- A held term is determined by what its parts come to. -/
theorem eq_of_equates (hw : ¬op.Absorbs (op.neutral w)) (hr : b.HoldsAt w r) (hs : b.HoldsAt w s)
    (h : op.Equates w (r.parts op) (s.parts op)) : r = s := by
  -- A constant has no other parts, and a term that is no constant has some.
  have hmixed : ∀ {r s : Term .word}, b.HoldsAt w r → b.HoldsAt w s → op.Equates w (r.parts op) (s.parts op) →
      r.isConst = true → s.isConst = false → False := by
    intro r s hr hs h hrconst hsconst
    have hnot : ¬op.Absorbs (op.constant w (r.parts op)) := h.constant ▸ not_absorbs_parts hb htidy hw hs hsconst
    have hperm := others_parts_perm hb htidy hr hs h hnot
    obtain ⟨a, ha⟩ := exists_const? hrconst
    rw [parts_of_const? ha, others_singleton ha] at hperm
    exact others_parts_ne_nil hb htidy hs.held hsconst hperm.symm.eq_nil
  cases hrconst : r.isConst <;> cases hsconst : s.isConst
  · have hparts := parts_eq_of_equates hb htidy hw hr hs h hrconst hsconst
    rcases parts_cases htidy op hr.held with hr' | ⟨i, hr', hreduced⟩ <;>
      rcases parts_cases htidy op hs.held with hs' | ⟨j, hs', hreduced'⟩
    · exact List.singleton_inj.mp (hr'.symm.trans (hparts.trans hs'))
    · have := hreduced'.many
      rw [← hparts, hr', List.length_singleton] at this
      omega
    · have := hreduced.many
      rw [hparts, hs', List.length_singleton] at this
      omega
    · refine hb.shared hr.held hs.held ?_
      rw [hr', hs', hparts]
      simp [alike]
  · exact (hmixed hs hr h.symm hsconst hrconst).elim
  · exact (hmixed hr hs h hrconst hsconst).elim
  · obtain ⟨a, ha⟩ := exists_const? hrconst
    obtain ⟨a', ha'⟩ := exists_const? hsconst
    have hbits := h.constant
    rw [parts_of_const? ha, parts_of_const? ha', op.constant_singleton w ha, op.constant_singleton w ha'] at hbits
    exact eq_of_const?_bits hb hr hs ha ha' hbits

end Parts

end Term

/-! ### Constructors add up -/

namespace Build

open Term NaryOp

variable {op : NaryOp} {x y : Term .word}

/-- Interning answers with the draft under a number. -/
theorem intern_eq_withId (hb : b.Consistent) {k : Ty} {d : Term k} (hd : d.Children b.Holds) :
    (intern d b).1 = d.withId (intern d b).1.id := by
  cases hfind : (b.bucket (b.fingerprint d) k).find? d.alike with
  | some t =>
      have hmem := List.mem_of_find?_eq_some hfind
      rw [← hb.filed hmem] at hmem
      rw [(intern_of_find hfind).1]
      exact hb.eq_withId hd hmem (List.find?_some hfind)
  | none => rw [intern_of_not_find hfind, id_withId]

theorem const_equates (hb : b.Consistent) {a : Word} {ts : List (Term .word)} (hconstant : op.constant w ts = a.bits w)
    (htally : ¬op.Absorbs (a.bits w) → op.tally (others ts) = op.tally []) :
    op.Equates w ((const a b).1.parts op) ts := by
  have ha : (const a b).1.const? = some a := congrArg const? (intern_eq_withId hb (d := .const 0 a) trivial)
  rw [parts_of_const? ha]
  refine ⟨?_, fun hnot => ?_⟩
  · rw [op.constant_singleton w ha, hconstant]
  · rw [op.constant_singleton w ha] at hnot
    rw [others_singleton ha, htally hnot]

/-- The collection of parts that are not taken apart any more comes to what these come to. -/
theorem collect_equates (hb : b.Consistent) {ts : List (Term .word)} (hheld : ∀ t ∈ ts, b.Holds t)
    (hflat : ∀ t ∈ ts, t.parts op = [t]) : op.Equates w ((collect op w ts b).1.parts op) ts := by
  match ts, hheld, hflat with
  | [], _, _ => exact const_equates hb (op.bits_unit w).symm fun _ => rfl
  | [t], _, hflat =>
      change op.Equates w (t.parts op) [t]
      rw [hflat t (List.mem_singleton_self t)]
      exact .refl op w _
  | t :: u :: ts, hheld, _ =>
      have hchildren : Term.Children b.Holds (.nary 0 op (sortById (t :: u :: ts))) := fun v hv =>
        hheld v (mem_sortById.mp hv)
      have hparts : (collect op w (t :: u :: ts) b).1.parts op = sortById (t :: u :: ts) := by
        refine (congrArg (parts op) (intern_eq_withId hb hchildren)).trans ?_
        exact if_pos rfl
      rw [hparts]
      exact .of_perm op w (sortById_perm _)

theorem collectWith_equates (hb : b.Consistent) {a : Word} {rest : List (Term .word)}
    (hrest : ∀ t ∈ rest, b.Holds t ∧ t.isConst = false ∧ t.parts op = [t]) {ts : List (Term .word)}
    (hconstant : op.constant w ts = a.bits w) (htally : op.tally (others ts) = op.tally rest) :
    op.Equates w ((collectWith op w a rest b).1.parts op) ts := by
  have hneutral := op.constant_of_forall w fun t ht => (hrest t ht).2.1
  have hothers := others_of_forall fun t ht => (hrest t ht).2.1
  unfold collectWith MonadTerms.collectWith
  split_ifs with hunit
  · refine (collect_equates hb (fun t ht => (hrest t ht).1) fun t ht => (hrest t ht).2.2).trans ⟨?_, fun _ => ?_⟩
    · rw [hneutral, hconstant, hunit, op.bits_unit]
    · rw [hothers, htally]
  · have hrun := intern_runs hb (d := .const 0 a) trivial trivial
    obtain ⟨hheld, heq⟩ := hrun.post
    have hconst : (const a b).1.const? = some a := congrArg const? heq
    rw [const_eq, bind_apply]
    refine (collect_equates hrun.consistent (fun t ht => ?_) fun t ht => ?_).trans ⟨?_, fun _ => ?_⟩
    · rcases List.mem_append.mp ht with ht | ht
      · exact (hrest t ht).1.mono hrun.grows
      · exact List.mem_singleton.mp ht ▸ hheld
    · rcases List.mem_append.mp ht with ht | ht
      · exact (hrest t ht).2.2
      · exact List.mem_singleton.mp ht ▸ parts_of_const? hconst
    · rw [constant_append, hneutral, op.constant_singleton w hconst, op.neutral_bits, hconstant]
    · rw [others_append, hothers, others_singleton hconst, List.append_nil, htally]

theorem combine_equates (hb : b.Consistent) (htidy : b.Tidy) {ts : List (Term .word)} (hheld : ∀ t ∈ ts, b.Holds t)
    (hflat : ∀ t ∈ ts, t.parts op = [t]) : op.Equates w ((combine op w ts b).1.parts op) ts := by
  have hconstant := (op.bits_foldConsts w ts).symm
  have hothers : ∀ t ∈ others ts, b.Holds t := fun t ht => hheld t (mem_others.mp ht).1
  unfold combine
  split_ifs with habsorbs
  · exact const_equates hb hconstant fun hnot => absurd habsorbs hnot
  · refine collectWith_equates hb (fun t ht => ?_) hconstant (op.tally_reduce hb htidy hothers).symm
    obtain ⟨hmem, hconst⟩ := mem_others.mp (mem_of_mem_reduce ht)
    exact ⟨hheld t hmem, hconst, hflat t hmem⟩

/-- Opposites are no constants and no sums. -/
theorem parts_of_isOpposite (hb : b.Consistent) (htidy : b.Tidy) (hx : b.Holds x) (hy : b.Holds y)
    (h : x.isOpposite y = true) :
    (x.parts .add = [x] ∧ x.isConst = false) ∧ y.parts .add = [y] ∧ y.isConst = false := by
  have hneg : ∀ {i : Nat} {t u : Term .word}, b.Holds (.unary i .neg t) → b.Holds u → u.id = t.id →
      u.parts .add = [u] ∧ u.isConst = false := by
    intro i t u ht hu hid
    rw [hb.eq_of_id hu (hb.children ht) hid]
    refine ⟨?_, hb.proper ht⟩
    rcases parts_cases htidy .add (hb.children ht) with hparts | ⟨j, hsum, -⟩
    · exact hparts
    · exact absurd hsum ((htidy.term ht).2 j _)
  rcases isOpposite_cases h with ⟨i, t, rfl, hid⟩ | ⟨i, t, rfl, hid⟩
  · exact ⟨⟨rfl, rfl⟩, hneg hx hy hid⟩
  · exact ⟨hneg hy hx hid, rfl, rfl⟩

/-- Opposites in a sum, and equals in an exclusive or, come to nothing. -/
theorem clash_equates (hb : b.Consistent) (htidy : b.Tidy) (hx : b.Holds x) (hy : b.Holds y)
    (hop : op = .add ∨ op = .xor) (h : op.clash x y = true) :
    op.Equates w ((const (op.unit w) b).1.parts op) (x.parts op ++ y.parts op) := by
  rcases hop with rfl | rfl
  · obtain ⟨⟨hparts, hconst⟩, hparts', hconst'⟩ := parts_of_isOpposite hb htidy hx hy h
    have hnone : ∀ t ∈ [x] ++ [y], t.isConst = false := by simp [hconst, hconst']
    rw [hparts, hparts']
    refine const_equates hb ?_ fun _ => ?_
    · rw [NaryOp.add.constant_of_forall w hnone]
      exact (NaryOp.add.bits_unit w).symm
    · funext i
      obtain ⟨hid, hsign⟩ := signed_of_isOpposite hb htidy hx hy h
      rw [others_of_forall hnone]
      change (if x.signed.1 = i then x.signed.2 else 0) + ((if y.signed.1 = i then y.signed.2 else 0) + 0) = 0
      rw [hid]
      split_ifs
      · rw [Int.add_zero, hsign]
      · rfl
  · cases hb.eq_of_id hx hy (beq_iff_eq.mp h)
    refine const_equates hb ?_ fun _ => ?_
    · rw [constant_append, NaryOp.xor.bits_unit]
      exact BitVec.xor_self
    · funext i
      rw [others_append, tally, sum_append]
      change (NaryOp.xor.sum (others (x.parts .xor)) i + NaryOp.xor.sum (others (x.parts .xor)) i) % 2 = 0
      omega

/-- What two operands of a constructor come to is what its answer comes to. -/
theorem nary_equates (hb : b.Consistent) (htidy : b.Tidy) (hx : b.HoldsAt w x) (hy : b.HoldsAt w y) (op : NaryOp) :
    op.Equates w ((nary op x y b).1.parts op) (x.parts op ++ y.parts op) := by
  have hrule := nary_rule hx.width hy.width op
  generalize nary op x y = act at hrule ⊢
  cases hrule with
  | unitLeft ha hneutral =>
      rw [parts_of_const? ha]
      exact .unit_append ha hneutral _
  | unitRight ha hneutral =>
      rw [parts_of_const? ha]
      exact (Equates.unit_append ha hneutral _).trans (.of_perm op w List.perm_append_comm)
  | absorbLeft ha habsorbs =>
      change op.Equates w (x.parts op) _
      rw [parts_of_const? ha]
      exact .absorb_append ha habsorbs _
  | absorbRight ha habsorbs =>
      change op.Equates w (y.parts op) _
      rw [parts_of_const? ha]
      exact (Equates.absorb_append ha habsorbs _).trans (.of_perm op w List.perm_append_comm)
  | same hop h =>
      cases hb.eq_of_id hx.held hy.held h
      refine .of_mem_iff hop fun t => ?_
      rw [List.mem_append, or_self]
      rfl
  | clash hop h => exact clash_equates hb htidy hx.held hy.held hop h
  | @constants a a' ha ha' =>
      rw [parts_of_const? ha, parts_of_const? ha']
      refine const_equates hb ?_ fun _ => ?_
      · rw [constant_append, op.constant_singleton w ha, op.constant_singleton w ha',
          op.bits_apply ((width_of_const? ha).trans hx.width)]
      · rw [others_append, others_singleton ha, others_singleton ha']
        rfl
  | combine =>
      refine combine_equates hb htidy (fun t ht => ?_) fun t ht => ?_
      · exact (List.mem_append.mp ht).elim (fun ht => (hx.parts hb ht).held) fun ht => (hy.parts hb ht).held
      · exact (List.mem_append.mp ht).elim (flat_of_mem_parts htidy hx.held) (flat_of_mem_parts htidy hy.held)

end Build

end Pathwise
