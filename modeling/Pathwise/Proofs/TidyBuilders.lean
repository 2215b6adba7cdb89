import Pathwise.Proofs.NormalForms

/-! Builders stay tidy. Whatever is requested and evaluated, every interned node is one to which no rule of its
constructor applies. For each constructor this is read off the branch in which it interns: the rules tried before
have failed there. A computation that goes on with a result knows from `Build.Runs` what the result is, so
`Build.Tidies` needs to say nothing about it. -/

namespace Pathwise

open Builder

namespace Build

open Term

variable {w : Nat} {b : Builder} {x y : Term .word}

/-! ### Constructors -/

/-- The computation leaves a tidy builder. -/
def Tidies {α : Type} (act : Build α) (b : Builder) : Prop := (act b).2.Tidy

theorem Tidies.bind {α β : Type} {act : Build α} {next : α → Build β} {mid : α → Builder → Prop}
    (h : Runs act b mid) (ht : Tidies act b)
    (hnext : ∀ a c, b ≤ c → c.Consistent → c.Tidy → mid a c → Tidies (next a) c) : Tidies (act >>= next) b :=
  hnext _ _ h.grows h.consistent ht h.post

theorem intern_tidy (ht : b.Tidy) {k : Ty} {d : Term k} (hd : d.Tidy) : Tidies (intern d) b := by
  cases hfind : (b.bucket (b.fingerprint d) k).find? d.alike with
  | some t => exact ht.of_sameTable (intern_of_find hfind).2
  | none =>
      refine ⟨fun {l u} hu => ?_⟩
      rw [intern_of_not_find hfind, ← b.fingerprint_withId (b.lastId + 1) d] at hu
      rcases (holds_file _ _ _).mp hu with hu | heq
      · exact ht.term hu
      · cases heq
        exact (tidy_withId _ _).mpr hd

theorem flat_of_mem_parts (ht : b.Tidy) {op : NaryOp} (hx : b.Holds x) {t : Term .word} (h : t ∈ x.parts op) :
    t.parts op = [t] := by
  cases x with
  | nary i o args =>
      by_cases hop : o = op
      · subst hop
        rw [parts, if_pos rfl] at h
        exact (ht.term hx).flat t h
      · rw [parts, if_neg hop] at h
        rw [List.mem_singleton.mp h, parts, if_neg hop]
  | _ =>
      rw [List.mem_singleton.mp h]
      rfl

section Nary

variable {op : NaryOp}

theorem collect_tidy (ht : b.Tidy) {ts : List (Term .word)} (hflat : ∀ t ∈ ts, t.parts op = [t])
    (hsingle : ts.Pairwise fun t u => t.isConst = false ∨ u.isConst = false)
    (hconstant : ∀ t ∈ ts, ∀ c, t.const? = some c → c ≠ op.unit c.width ∧ ¬op.Absorbs (c.bits c.width))
    (hapart : (others ts).Pairwise fun t u => op.clash t u = false)
    (hbits : ∀ t ∈ ts, ¬op.Absorbs (op.neutral t.width)) : Tidies (collect op w ts) b := by
  match ts, hflat, hsingle, hconstant, hapart, hbits with
  | [], _, _, _, _, _ => exact intern_tidy ht trivial
  | [_], _, _, _, _, _ => exact ht
  | t :: u :: ts, hflat, hsingle, hconstant, hapart, hbits =>
      have hperm := sortById_perm (t :: u :: ts)
      refine intern_tidy (d := .nary 0 op (sortById (t :: u :: ts))) ht ⟨?_, sortById_sorted _, ?_, ?_, ?_, ?_, ?_⟩
      · rw [hperm.length_eq]
        exact Nat.le_add_left _ _
      · exact fun v hv => hflat v (mem_sortById.mp hv)
      · exact (hperm.pairwise_iff fun h => h.symm).mpr hsingle
      · exact fun v hv => hconstant v (mem_sortById.mp hv)
      · refine ((hperm.filter _).pairwise_iff fun h => ?_).mpr hapart
        rw [op.clash_comm]
        exact h
      · exact fun v hv => hbits v (mem_sortById.mp hv)

theorem collectWith_tidy (hb : b.Consistent) (ht : b.Tidy) {c : Word} (hc : c.width = w)
    (habsorbs : ¬op.Absorbs (c.bits w)) {rest : List (Term .word)}
    (hrest : ∀ t ∈ rest, t.isConst = false ∧ t.parts op = [t] ∧ t.width = w)
    (hapart : rest.Pairwise fun t u => op.clash t u = false) : Tidies (collectWith op w c rest) b := by
  have hothers : others rest = rest := List.filter_eq_self.mpr fun t h => by rw [(hrest t h).1]; rfl
  have hnone : ∀ t ∈ rest, t.const? = none := fun t h => const?_eq_none_iff.mpr (hrest t h).1
  have hsingle : rest.Pairwise fun t u => t.isConst = false ∨ u.isConst = false :=
    List.pairwise_of_forall_mem_list fun t h _ _ => Or.inl (hrest t h).1
  have hbits : ∀ t : Term .word, t.width = w → ¬op.Absorbs (op.neutral t.width) := by
    rintro t rfl hneutral
    exact habsorbs (NaryOp.absorbs_of_neutral hneutral _)
  subst hc
  unfold collectWith MonadTerms.collectWith
  split_ifs with hunit
  · refine collect_tidy ht (fun t h => (hrest t h).2.1) hsingle (fun t h a ha => ?_) (hothers.symm ▸ hapart)
      fun t h => hbits t (hrest t h).2.2
    rw [hnone t h] at ha
    cases ha
  · refine Tidies.bind (intern_runs hb (d := .const 0 c) trivial trivial) (intern_tidy ht trivial)
      fun t d _ _ ht' ht => ?_
    have hconst : t = .const t.id c := ht.2
    refine collect_tidy ht' (fun u h => ?_) ?_ (fun u h a ha => ?_) ?_ fun u h => hbits u ?_
    · rcases List.mem_append.mp h with h | h
      · exact (hrest u h).2.1
      · rw [List.mem_singleton.mp h, hconst]
        rfl
    · exact List.pairwise_append.mpr ⟨hsingle, List.pairwise_singleton _ _, fun u h _ _ => Or.inl (hrest u h).1⟩
    · rcases List.mem_append.mp h with h | h
      · rw [hnone u h] at ha
        cases ha
      · rw [List.mem_singleton.mp h, hconst] at ha
        cases ha
        exact ⟨hunit, habsorbs⟩
    · have hdrop : others [t] = [] := by rw [hconst]; rfl
      rw [others, List.filter_append]
      change (others rest ++ others [t]).Pairwise _
      rwa [hothers, hdrop, List.append_nil]
    · rcases List.mem_append.mp h with h | h
      · exact (hrest u h).2.2
      · rw [List.mem_singleton.mp h, hconst]
        rfl

theorem combine_tidy (hb : b.Consistent) (ht : b.Tidy) {ts : List (Term .word)}
    (hts : ∀ t ∈ ts, t.parts op = [t] ∧ t.width = w) : Tidies (combine op w ts) b := by
  unfold combine
  dsimp only
  split_ifs with habsorbs
  · exact intern_tidy ht trivial
  · refine collectWith_tidy hb ht (width_fst_foldConsts op w ts) habsorbs (fun t h => ?_) (op.reduce_pairwise _)
    obtain ⟨hmem, hconst⟩ := mem_others.mp (NaryOp.mem_of_mem_reduce h)
    exact ⟨hconst, hts t hmem⟩

theorem nary_tidy (hb : b.Consistent) (ht : b.Tidy) (hx : b.HoldsAt w x) (hy : b.HoldsAt w y) (op : NaryOp) :
    Tidies (nary op x y) b := by
  have hflat : ∀ t ∈ x.parts op ++ y.parts op, t.parts op = [t] ∧ t.width = w := fun t h =>
    (List.mem_append.mp h).elim (fun h => ⟨flat_of_mem_parts ht hx.held h, (hx.parts hb h).width⟩) fun h =>
      ⟨flat_of_mem_parts ht hy.held h, (hy.parts hb h).width⟩
  have hrule := nary_rule hx.width hy.width op
  generalize nary op x y = act at hrule ⊢
  cases hrule with
  | unitLeft => exact ht
  | unitRight => exact ht
  | absorbLeft => exact ht
  | absorbRight => exact ht
  | same => exact ht
  | clash => exact intern_tidy ht trivial
  | constants => exact intern_tidy ht trivial
  | combine => exact combine_tidy hb ht hflat

end Nary

theorem shift_tidy (ht : b.Tidy) {op : BinaryOp} (hop : op = .shl ∨ op = .lshr ∨ op = .ashr) (x y : Term .word) :
    Tidies (shift op x y) b := by
  have hintern : (∀ c, y.const? = some c → c.isZero = false ∧ ¬(x.width ≤ c.value ∧ op ≠ .ashr)) →
      Tidies (intern (.binary 0 op x y)) b := fun h => by
    rcases hop with rfl | rfl | rfl <;> exact intern_tidy ht h
  unfold shift MonadTerms.shift
  cases hamount : y.const? with
  | none => exact hintern fun c hc => by cases hamount.symm.trans hc
  | some amount =>
      dsimp only
      by_cases hzero : amount.isZero = true
      · rw [if_pos hzero]
        exact ht
      · rw [if_neg hzero]
        cases x.const? with
        | some c => exact intern_tidy ht trivial
        | none =>
            dsimp only
            split_ifs with hout
            · exact intern_tidy ht trivial
            · refine hintern fun c hc => ?_
              cases hamount.symm.trans hc
              exact ⟨Bool.eq_false_iff.mpr hzero, hout⟩

theorem binary_tidy (ht : b.Tidy) (op : BinaryOp) (x y : Term .word) : Tidies (binary op x y) b := by
  cases op with
  | shl => exact shift_tidy ht (by simp) x y
  | lshr => exact shift_tidy ht (by simp) x y
  | ashr => exact shift_tidy ht (by simp) x y
  | sdiv =>
      unfold binary MonadTerms.binary MonadTerms.sdiv
      dsimp only
      split
      · exact intern_tidy ht trivial
      · split_ifs with hone
        · exact ht
        · exact intern_tidy (d := .binary 0 .sdiv x y) ht (Bool.eq_false_iff.mpr hone)
  | srem =>
      unfold binary MonadTerms.binary MonadTerms.srem
      dsimp only
      split
      · exact intern_tidy ht trivial
      · split_ifs with hnone
        · exact intern_tidy ht trivial
        · rw [not_or] at hnone
          exact intern_tidy (d := .binary 0 .srem x y) ht ⟨hnone.1, Bool.eq_false_iff.mpr hnone.2⟩

theorem ite_tidy (ht : b.Tidy) (guard : Cond) (x y : Term .word) : Tidies (ite guard x y) b := by
  unfold ite MonadTerms.ite
  split
  · exact ht
  · exact ht
  · split_ifs with hsame
    · exact ht
    · exact intern_tidy (d := .ite 0 guard x y) ht hsame

theorem bitNot_tidy (ht : b.Tidy) (x : Term .word) : Tidies (bitNot x) b := by
  unfold bitNot MonadTerms.bitNot
  split
  · exact intern_tidy ht trivial
  · exact ht
  · rename_i hnot
    exact intern_tidy (d := .unary 0 .not x) ht hnot

theorem compare_tidy (ht : b.Tidy) (op : CompareOp) (x y : Term .word) : Tidies (compare op x y) b := by
  unfold compare MonadTerms.compare
  split
  · exact intern_tidy ht trivial
  · split_ifs with hsame
    · exact intern_tidy ht trivial
    · exact intern_tidy (d := .compare 0 op x y) ht hsame

theorem flat_of_mem_condParts (ht : b.Tidy) {op : Connective} {p q : Cond} (hp : b.Holds p)
    (h : q ∈ p.condParts op) : q.condParts op = [q] := by
  cases p with
  | junction i o args =>
      by_cases hop : o = op
      · subst hop
        rw [condParts, if_pos rfl] at h
        exact (ht.term hp).2.2 q h
      · rw [condParts, if_neg hop] at h
        rw [List.mem_singleton.mp h, condParts, if_neg hop]
  | _ =>
      rw [List.mem_singleton.mp h]
      rfl

/-- Sorted conditions of which each is there once. -/
theorem sortById_dedup_pairwise (ps : List Cond) :
    (sortById (dedup ps)).Pairwise fun p q => p.id < q.id := by
  have hdistinct : (sortById (dedup ps)).Pairwise fun p q => p.id ≠ q.id :=
    ((sortById_perm _).pairwise_iff fun h => h.symm).mpr (dedup_pairwise ps)
  exact (sortById_sorted _).imp₂ (fun _ _ hle hne => lt_of_le_of_ne hle hne) hdistinct

theorem join_tidy (hb : b.Consistent) (ht : b.Tidy) {p q : Cond} (hp : b.Holds p) (hq : b.Holds q)
    (op : Connective) : Tidies (join op p q) b := by
  unfold join
  cases hv : p.truth? with
  | some v =>
      dsimp only
      split_ifs
      · exact ht
      · exact intern_tidy ht trivial
  | none =>
      cases hv' : q.truth? with
      | some v =>
          dsimp only
          split_ifs
          · exact ht
          · exact intern_tidy ht trivial
      | none =>
          dsimp only
          generalize hparts : sortById (dedup (p.condParts op ++ q.condParts op)) = rs
          obtain ⟨hne, -⟩ := condOperands_spec hb hp hq op (truth?_eq_none_iff.mp hv) (truth?_eq_none_iff.mp hv') hparts
          split
          · exact ht
          · rename_i hmany
            refine intern_tidy (d := .junction 0 op rs) ht ⟨?_, hparts ▸ sortById_dedup_pairwise _, fun r hr => ?_⟩
            · match rs, hne, hmany with
              | [r], _, hmany => exact absurd rfl (hmany r)
              | _ :: _ :: _, _, _ => exact Nat.le_add_left _ _
            · rw [← hparts, mem_sortById] at hr
              exact (List.mem_append.mp (mem_of_mem_dedup hr)).elim (flat_of_mem_condParts ht hp)
                (flat_of_mem_condParts ht hq)

theorem foldlM_join_tidy {ps : List Cond} : ∀ {b : Builder} {acc : Cond}, b.Consistent → b.Tidy → b.Holds acc →
    (∀ p ∈ ps, b.Holds p) → Tidies (ps.foldlM (join .and) acc) b := by
  induction ps with
  | nil => exact fun _ ht _ _ => ht
  | cons p ps ih =>
      intro b acc hb ht hacc hps
      rw [List.forall_mem_cons] at hps
      rw [List.foldlM_cons]
      exact Tidies.bind (join_runs hb hacc hps.1 .and) (join_tidy hb ht hacc hps.1 .and) fun r c hle hc ht' hr =>
        ih hc ht' hr.held fun q hq => (hps.2 q hq).mono hle

theorem all_tidy (hb : b.Consistent) (ht : b.Tidy) {ps : List Cond} (hps : ∀ p ∈ ps, b.Holds p) :
    Tidies (all ps) b :=
  Tidies.bind (truth_runs hb true []) (intern_tidy ht trivial) fun _ _ hle hc ht' hstart =>
    foldlM_join_tidy hc ht' hstart.1.held fun p hp => (hps p hp).mono hle

/-! ### Opposites -/

theorem negateSum_tidy {ts : List (Term .word)}
    (ih : ∀ t ∈ ts, ∀ b : Builder, b.Consistent → b.Tidy → b.Holds t → Tidies (negate t) b) :
    ∀ {b : Builder} {acc : Term .word}, b.Consistent → b.Tidy → b.HoldsAt w acc → (∀ t ∈ ts, b.HoldsAt w t) →
      Tidies (negateSum acc ts) b := by
  induction ts with
  | nil => exact fun _ ht _ _ => ht
  | cons t ts ihts =>
      intro b acc hb ht hacc hts
      rw [List.forall_mem_cons] at ih hts
      rw [negateSum, MonadTerms.negateSum]
      refine Tidies.bind (neg_runs hb hts.1) (ih.1 b hb ht hts.1.held) fun n c hle hc ht' hn => ?_
      refine Tidies.bind (add_runs hc (hacc.mono hle) hn.toHoldsAt) (nary_tidy hc ht' (hacc.mono hle) hn.toHoldsAt .add)
        fun u d hle' hd ht'' hu => ?_
      exact ihts ih.2 hd ht'' hu.toHoldsAt fun v hv => (hts.2 v hv).mono (hle.trans hle')

theorem negateJoin_tidy (op : Connective) {ps : List Cond}
    (ih : ∀ p ∈ ps, ∀ b : Builder, b.Consistent → b.Tidy → b.Holds p → Tidies (negate p) b) :
    ∀ {b : Builder} {acc : Cond}, b.Consistent → b.Tidy → b.Holds acc → (∀ p ∈ ps, b.Holds p) →
      Tidies (negateJoin op acc ps) b := by
  induction ps with
  | nil => exact fun _ ht _ _ => ht
  | cons p ps ihps =>
      intro b acc hb ht hacc hps
      rw [List.forall_mem_cons] at ih hps
      rw [negateJoin, MonadTerms.negateJoin]
      refine Tidies.bind (boolNot_runs hb hps.1) (ih.1 b hb ht hps.1) fun n c hle hc ht' hn => ?_
      refine Tidies.bind (join_runs hc (hacc.mono hle) hn.held op) (join_tidy hc ht' (hacc.mono hle) hn.held op)
        fun q d hle' hd ht'' hq => ?_
      exact ihps ih.2 hd ht'' hq.held fun r hr => (hps.2 r hr).mono (hle.trans hle')

theorem negate_tidy {k : Ty} (t : Term k) :
    ∀ b : Builder, b.Consistent → b.Tidy → b.Holds t → Tidies (negate t) b := by
  induction t using Term.induct with
  | symbol i name width => exact fun b _ ht _ => intern_tidy ht ⟨by rintro _ _ ⟨⟩, by rintro _ _ ⟨⟩⟩
  | const i c => exact fun b _ ht _ => intern_tidy ht trivial
  | ite i cond yes no => exact fun b _ ht _ => intern_tidy ht ⟨by rintro _ _ ⟨⟩, by rintro _ _ ⟨⟩⟩
  | unary i op arg =>
      intro b _ ht _
      rw [negate, MonadTerms.negate]
      split_ifs with hop
      · exact ht
      · refine intern_tidy (d := .unary 0 .neg (.unary i op arg)) ht ⟨fun j u h => hop ?_, by rintro _ _ ⟨⟩⟩
        cases h
        rfl
  | binary i op left right => exact fun b _ ht _ => intern_tidy ht ⟨by rintro _ _ ⟨⟩, by rintro _ _ ⟨⟩⟩
  | nary i op args ih =>
      intro b hb ht h
      obtain ⟨hwidths, u, hu, -⟩ := hb.proper h
      obtain ⟨t, ts, rfl⟩ := List.exists_cons_of_ne_nil (List.ne_nil_of_mem hu)
      have hargs : ∀ v ∈ t :: ts, b.HoldsAt t.width v := fun v hv => ⟨hb.children h v hv, hwidths v hv⟩
      rw [List.forall_mem_cons] at ih hargs
      by_cases hop : op = .add
      · subst hop
        rw [negate, MonadTerms.negate]
        exact Tidies.bind (neg_runs hb hargs.1) (ih.1 b hb ht hargs.1.held) fun n c hle hc ht' hn =>
          negateSum_tidy ih.2 hc ht' hn.toHoldsAt fun v hv => (hargs.2 v hv).mono hle
      · have hneg : ∀ j u, Term.nary i op (t :: ts) ≠ .unary j .neg u := by rintro _ _ ⟨⟩
        have hsum : ∀ j us, Term.nary i op (t :: ts) ≠ .nary j .add us := by
          rintro j us ⟨⟩
          exact hop rfl
        rw [negate_of_atom rfl hneg hsum]
        exact intern_tidy (d := .unary 0 .neg (.nary i op (t :: ts))) ht ⟨hneg, hsum⟩
  | truth i v => exact fun b _ ht _ => intern_tidy ht trivial
  | not i arg => exact fun b _ ht _ => ht
  | compare i op left right =>
      intro b _ ht h
      rw [negate, MonadTerms.negate]
      split
      · exact intern_tidy (d := .compare 0 _ left right) ht (ht.term (t := .compare i op left right) h)
      · rename_i hop
        refine intern_tidy (d := .not 0 (.compare i op left right)) ht ⟨?_, ?_, ?_⟩
        · rintro _ _ ⟨⟩
        · rintro _ _ _ ⟨⟩
        · rintro _ _ _ _ ⟨⟩
          exact hop
  | junction i op args ih =>
      intro b hb ht h
      obtain ⟨p, ps, rfl⟩ := List.exists_cons_of_ne_nil (hb.proper h).1
      have hargs : ∀ q ∈ p :: ps, b.Holds q := fun q hq => hb.children h q hq
      rw [List.forall_mem_cons] at ih hargs
      rw [negate, MonadTerms.negate]
      exact Tidies.bind (boolNot_runs hb hargs.1) (ih.1 b hb ht hargs.1) fun n c hle hc ht' hn =>
        negateJoin_tidy op.dual ih.2 hc ht' hn.held fun q hq => (hargs.2 q hq).mono hle

theorem unary_tidy (hb : b.Consistent) (ht : b.Tidy) (hx : b.Holds x) (op : UnaryOp) : Tidies (unary op x) b := by
  cases op with
  | not => exact bitNot_tidy ht x
  | neg => exact negate_tidy x b hb ht hx

theorem checked_tidy (ht : b.Tidy) {k : Ty} {make : Term .word → Term .word → Build (Term k)}
    (h : x.width = y.width → Tidies (make x y) b) : Tidies (Checked.binary make x y) b := by
  unfold Checked.binary
  split_ifs with hwidth
  · exact h hwidth
  · exact ht

theorem checkedIte_tidy (ht : b.Tidy) (guard : Cond) (yes no : Term .word) : Tidies (Checked.ite guard yes no) b := by
  unfold Checked.ite
  split_ifs
  · exact ite_tidy ht guard yes no
  · exact ht

end Build

open Build in
/-- Requests, answered or refused, keep a builder tidy. -/
theorem Request.tidy {b : Builder} (hb : b.Consistent) (ht : b.Tidy) {k : Ty} (r : Request k)
    (hr : r.Operands b.Holds) : Tidies r.run b := by
  cases r with
  | int v width => exact intern_tidy ht trivial
  | symbol name width => exact intern_tidy ht trivial
  | unary op x => exact unary_tidy hb ht hr op
  | nary op x y => exact checked_tidy ht fun h => nary_tidy hb ht ⟨hr.1, rfl⟩ ⟨hr.2, h.symm⟩ op
  | sub x y =>
      exact Tidies.bind (neg_runs hb ⟨hr.2, rfl⟩) (negate_tidy y b hb ht hr.2) fun n c hle hc ht' hn =>
        checked_tidy ht' fun h => nary_tidy hc ht' ⟨hr.1.mono hle, rfl⟩ ⟨hn.held, h.symm⟩ .add
  | binary op x y => exact checked_tidy ht fun _ => binary_tidy ht op x y
  | ite guard yes no => exact checkedIte_tidy ht guard yes no
  | truth v => exact intern_tidy ht trivial
  | compare op x y => exact checked_tidy ht fun _ => compare_tidy ht op x y
  | notEqual x y =>
      refine checked_tidy ht fun h => ?_
      exact Tidies.bind (compare_runs hb .eq ⟨hr.1, rfl⟩ ⟨hr.2, h.symm⟩) (compare_tidy ht .eq x y)
        fun p c _ hc ht' hp => negate_tidy p c hc ht' hp.held
  | boolNot p => exact negate_tidy p b hb ht hr
  | join op p q => exact join_tidy hb ht hr.1 hr.2 op
  | all ps => exact all_tidy hb ht hr

/-! ### Evaluation -/

namespace EvalM

variable {m : Model} {α β : Type} {s : Evaluation}

/-- The computation leaves a tidy builder. -/
def Tidies (act : EvalM α) (s : Evaluation) : Prop := (act s).2.builder.Tidy

theorem Tidies.bind {act : EvalM α} {next : α → EvalM β} {mid : α → Builder → Prop} {names : List (String × Nat)}
    (h : Yields m names act s mid) (ht : Tidies act s)
    (hnext : ∀ a s', s.builder ≤ s'.builder → Sound m s' → s'.builder.Tidy → mid a s'.builder →
      Tidies (next a) s') : Tidies (act >>= next) s := by
  unfold Tidies at ht ⊢
  rcases h with ⟨a, s', hrun, hs', hle, -, hmid⟩ | ⟨e, s', hrun, -, -, -⟩
  · rw [hrun] at ht
    rw [bind_of_ok hrun]
    exact hnext a s' hle hs' ht hmid
  · rw [hrun] at ht
    rw [bind_of_error hrun]
    exact ht

theorem Tidies.lift {act : Build α} (h : Build.Tidies act s.builder) : Tidies (lift act) s := h

theorem Tidies.refusing {act : Build (Except OperandError α)} (h : Build.Tidies act s.builder) :
    Tidies (refusing act) s := by
  have hlift : EvalM.lift act s = (.ok (act s.builder).1, { s with builder := (act s.builder).2 }) := rfl
  unfold Tidies EvalM.refusing
  rw [bind_of_ok hlift]
  cases (act s.builder).1 with
  | ok a => exact h
  | error e => exact h

theorem Tidies.remember {k : Ty} {act : EvalM (Term k)} (ht : s.builder.Tidy) (h : Tidies act s) (id : Nat) :
    Tidies (remember id act) s := by
  unfold Tidies at h ⊢
  cases hmemo : s.memo[id]? with
  | some r =>
      obtain ⟨l, u⟩ := r
      by_cases hsort : l = k
      · subst hsort
        rwa [remember_of_some hmemo]
      · rwa [remember_of_other hmemo hsort]
  | none =>
      rw [remember_of_none hmemo]
      rcases hact : act s with ⟨e | u, s'⟩
      · rw [hact] at h
        rwa [bind_of_error hact]
      · rw [hact] at h
        rw [bind_of_ok hact]
        exact h

end EvalM

namespace Term

open EvalM

variable {m : Model}

/-- Evaluating a held term leaves a tidy builder, whatever was evaluated before. -/
def EvaluatesTidily (m : Model) {k : Ty} (t : Term k) : Prop :=
  ∀ s : Evaluation, Sound m s → s.builder.Tidy → s.builder.Holds t → EvalM.Tidies (t.evalM m) s

theorem evalParts_tidy (op : NaryOp) {w : Nat} {ts : List (Term .word)} (hts : ∀ t ∈ ts, EvaluatesTidily m t) :
    ∀ {s : Evaluation} {acc : Term .word}, Sound m s → s.builder.Tidy → (∀ t ∈ ts, s.builder.HoldsAt w t) →
      s.builder.HoldsAt w acc → EvalM.Tidies (evalParts m op acc ts) s := by
  induction ts with
  | nil => exact fun _ ht _ _ => ht
  | cons t ts ih =>
      intro s acc hs ht hheld hacc
      rw [List.forall_mem_cons] at hts hheld
      rw [evalParts]
      refine Tidies.bind (t.evaluable s hs hheld.1.held) (hts.1 s hs ht hheld.1.held) fun a s₁ hle₁ hs₁ ht₁ ha => ?_
      have ha := (ha.means hheld.1.width).toHoldsAt
      have hacc := hacc.mono hle₁
      rw [refusing_binary (hacc.width.trans ha.width.symm)]
      refine Tidies.bind (Yields.lift hs₁ (Build.nary_runs hs₁.consistent hacc ha op))
        (Tidies.lift (Build.nary_tidy hs₁.consistent ht₁ hacc ha op)) fun acc' s₂ hle₂ hs₂ ht₂ hacc' => ?_
      exact ih hts.2 hs₂ ht₂ (fun u hu => (hheld.2 u hu).mono (hle₁.trans hle₂)) hacc'.toHoldsAt

theorem evalConds_tidy (op : Connective) {ps : List Cond} (hps : ∀ p ∈ ps, EvaluatesTidily m p) :
    ∀ {s : Evaluation} {acc : Cond}, Sound m s → s.builder.Tidy → (∀ p ∈ ps, s.builder.Holds p) →
      s.builder.Holds acc → EvalM.Tidies (evalConds m op acc ps) s := by
  induction ps with
  | nil => exact fun _ ht _ _ => ht
  | cons p ps ih =>
      intro s acc hs ht hheld hacc
      rw [List.forall_mem_cons] at hps hheld
      rw [evalConds]
      refine Tidies.bind (p.evaluable s hs hheld.1) (hps.1 s hs ht hheld.1) fun a s₁ hle₁ hs₁ ht₁ ha => ?_
      have hacc := hacc.mono hle₁
      refine Tidies.bind (Yields.lift hs₁ (Build.join_runs hs₁.consistent hacc ha.held op))
        (Tidies.lift (Build.join_tidy hs₁.consistent ht₁ hacc ha.held op)) fun acc' s₂ hle₂ hs₂ ht₂ hacc' => ?_
      exact ih hps.2 hs₂ ht₂ (fun q hq => (hheld.2 q hq).mono (hle₁.trans hle₂)) hacc'.held

/-- Evaluating two operands and putting a term together from what comes of them. -/
theorem evalPair_tidy {left right : Term .word} (hleft : EvaluatesTidily m left) (hright : EvaluatesTidily m right)
    {s : Evaluation} (hs : Sound m s) (ht : s.builder.Tidy) (hheld : s.builder.Holds left)
    (hheld' : s.builder.Holds right) {k : Ty} {make : Term .word → Term .word → Build (Term k)}
    (hmake : ∀ a d c, c.Tidy → Build.Tidies (make a d) c) :
    EvalM.Tidies (do
      let a ← left.evalM m
      let d ← right.evalM m
      EvalM.refusing (Build.Checked.binary make a d)) s := by
  refine Tidies.bind (left.evaluable s hs hheld) (hleft s hs ht hheld) fun a s₁ hle₁ hs₁ ht₁ _ => ?_
  have hheld' := hheld'.mono hle₁
  exact Tidies.bind (right.evaluable s₁ hs₁ hheld') (hright s₁ hs₁ ht₁ hheld') fun d s₂ _ _ ht₂ _ =>
    Tidies.refusing (Build.checked_tidy ht₂ fun _ => hmake a d s₂.builder ht₂)

theorem evaluatesTidily {k : Ty} (t : Term k) : EvaluatesTidily m t := by
  induction t using Term.induct with
  | symbol i name width =>
      intro s _ ht _
      rw [evalM]
      split
      · exact ht
      · split_ifs
        · exact Tidies.lift (Build.intern_tidy ht trivial)
        · exact ht
  | const i c => exact fun _ _ ht _ => ht
  | ite i cond yes no hcond hyes hno =>
      intro s hs ht h
      obtain ⟨hheld, hheld', hheld''⟩ := hs.consistent.children h
      rw [evalM]
      refine Tidies.remember ht ?_ i
      refine Tidies.bind (cond.evaluable s hs hheld) (hcond s hs ht hheld) fun g s₁ hle₁ hs₁ ht₁ _ => ?_
      have hheld' := hheld'.mono hle₁
      refine Tidies.bind (yes.evaluable s₁ hs₁ hheld') (hyes s₁ hs₁ ht₁ hheld') fun a s₂ hle₂ hs₂ ht₂ _ => ?_
      have hheld'' := hheld''.mono (hle₁.trans hle₂)
      exact Tidies.bind (no.evaluable s₂ hs₂ hheld'') (hno s₂ hs₂ ht₂ hheld'') fun d s₃ _ _ ht₃ _ =>
        Tidies.refusing (Build.checkedIte_tidy ht₃ g a d)
  | unary i op arg harg =>
      intro s hs ht h
      rw [evalM]
      refine Tidies.remember ht ?_ i
      have hheld := hs.consistent.children h
      exact Tidies.bind (arg.evaluable s hs hheld) (harg s hs ht hheld) fun a s₁ _ hs₁ ht₁ ha =>
        Tidies.lift (Build.unary_tidy hs₁.consistent ht₁ ha.held op)
  | binary i op left right hleft hright =>
      intro s hs ht h
      obtain ⟨hheld, hheld'⟩ := hs.consistent.children h
      rw [evalM]
      exact Tidies.remember ht (evalPair_tidy hleft hright hs ht hheld hheld' fun a d c ht' =>
        Build.binary_tidy ht' op a d) i
  | nary i op args hargs =>
      intro s hs ht h
      obtain ⟨hwidths, u, hu, -⟩ := hs.consistent.proper h
      have hheld : ∀ t ∈ args, s.builder.HoldsAt (firstWidth args) t := fun t htmem =>
        ⟨hs.consistent.children h t htmem, hwidths t htmem⟩
      obtain ⟨t, ts, rfl⟩ := List.exists_cons_of_ne_nil (List.ne_nil_of_mem hu)
      rw [List.forall_mem_cons] at hargs hheld
      rw [evalM]
      refine Tidies.remember ht ?_ i
      refine Tidies.bind (t.evaluable s hs hheld.1.held) (hargs.1 s hs ht hheld.1.held) fun a s₁ hle₁ hs₁ ht₁ ha => ?_
      exact evalParts_tidy op hargs.2 hs₁ ht₁ (fun v hv => (hheld.2 v hv).mono hle₁) (ha.means hheld.1.width).toHoldsAt
  | truth i v => exact fun _ _ ht _ => ht
  | not i arg harg =>
      intro s hs ht h
      rw [evalM]
      refine Tidies.remember ht ?_ i
      have hheld := hs.consistent.children h
      exact Tidies.bind (arg.evaluable s hs hheld) (harg s hs ht hheld) fun a s₁ _ hs₁ ht₁ ha =>
        Tidies.lift (Build.negate_tidy a s₁.builder hs₁.consistent ht₁ ha.held)
  | compare i op left right hleft hright =>
      intro s hs ht h
      obtain ⟨hheld, hheld'⟩ := hs.consistent.children h
      rw [evalM]
      exact Tidies.remember ht (evalPair_tidy hleft hright hs ht hheld hheld' fun a d c ht' =>
        Build.compare_tidy ht' op a d) i
  | junction i op args hargs =>
      intro s hs ht h
      have hheld : ∀ p ∈ args, s.builder.Holds p := hs.consistent.children h
      rw [evalM]
      refine Tidies.remember ht ?_ i
      refine Tidies.bind (Yields.lift hs (Build.truth_runs hs.consistent op.unit []))
        (Tidies.lift (Build.intern_tidy ht trivial)) fun start s₁ hle₁ hs₁ ht₁ hstart => ?_
      exact evalConds_tidy op hargs hs₁ ht₁ (fun p hp => (hheld p hp).mono hle₁) hstart.1.held

end Term

theorem Build.eval_tidy {b : Builder} (hb : b.Consistent) (ht : b.Tidy) (m : Model) {k : Ty} {t : Term k}
    (h : b.Holds t) : Tidies (eval m t) b :=
  t.evaluatesTidily { builder := b } (EvalM.sound_fresh hb) ht h

/-- Requests and evaluations keep a builder tidy. -/
theorem Builder.Evolves.tidy {b c : Builder} (hb : b.Consistent) (ht : b.Tidy) (h : b.Evolves c) : c.Tidy := by
  induction h with
  | refl => exact ht
  | request h r hr ih => exact r.tidy (h.runs hb).1 ih hr
  | eval h m hheld ih => exact Build.eval_tidy (h.runs hb).1 ih m hheld

end Pathwise
