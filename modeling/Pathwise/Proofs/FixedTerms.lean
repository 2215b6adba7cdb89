import Pathwise.Proofs.InverseLaws

/-! Interned terms are fixed by evaluation. No rule of its constructor applies to an interned node, so building the
node again from its children gives the node (`Build.Rebuilds`); a node with many operands is built again one operand
after the other, and comes to the same operands in the end. So a model that binds none of a term's symbols leaves the
term as it is. Evaluation may intern other terms on the way, such as parts of a sum, but what it keeps by number is
always the node of that number: `EvalM.Intact` is the invariant. -/

namespace Pathwise

open Builder

variable {w : Nat} {b c : Builder} {k : Ty}

/-! ### Building a node again -/

namespace Build

open Term

variable {i : Nat} {x y : Term .word} {p : Cond}

/-- The computation answers with a term that the builder holds already, and adds nothing. -/
structure Rebuilds (act : Build (Term k)) (b : Builder) (t : Term k) : Prop where
  same : (act b).1 = t
  table : (act b).2.SameTable b

theorem intern_rebuilds (hb : b.Consistent) {t : Term k} (ht : b.Holds t) : Rebuilds (intern (t.withId 0)) b t := by
  obtain ⟨hsame, htable⟩ := intern_again hb ht
  exact ⟨hsame, htable⟩

/-- Operands of which one is no constant. -/
theorem not_both_const {a a' : Word} (h : x.isConst = false ∨ y.isConst = false) (ha : x.const? = some a)
    (ha' : y.const? = some a') : False := by
  rcases h with h | h
  · cases (const?_eq_none_iff.mpr h).symm.trans ha
  · cases (const?_eq_none_iff.mpr h).symm.trans ha'

section Nodes

variable (hb : b.Consistent) (htidy : b.Tidy)

include hb

theorem shift_rebuilds {op : BinaryOp} (h : b.Holds (.binary i op x y))
    (hamount : ∀ a, y.const? = some a → a.isZero = false ∧ ¬(x.width ≤ a.value ∧ op ≠ .ashr)) :
    Rebuilds (shift op x y) b (.binary i op x y) := by
  have hshift : shift op x y = intern (.binary 0 op x y) := by
    unfold shift MonadTerms.shift
    cases ha : y.const? with
    | none => rfl
    | some a =>
        have hx : x.const? = none :=
          Option.eq_none_iff_forall_ne_some.mpr fun a' ha' => not_both_const (hb.proper h).2 ha' ha
        dsimp only
        rw [if_neg (Bool.eq_false_iff.mp (hamount a ha).1), hx]
        exact if_neg (hamount a ha).2
  rw [hshift]
  exact intern_rebuilds hb h

include htidy

theorem ite_rebuilds (h : b.Holds (.ite i p x y)) : Rebuilds (ite p x y) b (.ite i p x y) := by
  have hite : ite p x y = intern (.ite 0 p x y) := by
    unfold ite MonadTerms.ite
    rw [truth?_eq_none_iff.mpr (hb.proper h).2]
    exact if_neg (htidy.term h)
  rw [hite]
  exact intern_rebuilds hb h

theorem unary_rebuilds {op : UnaryOp} (h : b.Holds (.unary i op x)) : Rebuilds (unary op x) b (.unary i op x) := by
  have hunary : unary op x = intern (.unary 0 op x) := by
    cases op with
    | not => exact bitNot_of_atom (hb.proper h) (htidy.term h)
    | neg => exact negate_of_atom (hb.proper h) (htidy.term h).1 (htidy.term h).2
  rw [hunary]
  exact intern_rebuilds hb h

theorem sdiv_rebuilds (h : b.Holds (.binary i .sdiv x y)) : Rebuilds (sdiv x y) b (.binary i .sdiv x y) := by
  have hsdiv : sdiv x y = intern (.binary 0 .sdiv x y) := by
    unfold sdiv MonadTerms.sdiv
    split
    · rename_i a a' ha ha'
      exact (not_both_const (hb.proper h).2 ha ha').elim
    · exact if_neg (Bool.eq_false_iff.mp (htidy.term h))
  rw [hsdiv]
  exact intern_rebuilds hb h

theorem srem_rebuilds (h : b.Holds (.binary i .srem x y)) : Rebuilds (srem x y) b (.binary i .srem x y) := by
  obtain ⟨hid, hone⟩ := htidy.term h
  have hsrem : srem x y = intern (.binary 0 .srem x y) := by
    unfold srem MonadTerms.srem
    split
    · rename_i a a' ha ha'
      exact (not_both_const (hb.proper h).2 ha ha').elim
    · exact if_neg (not_or.mpr ⟨hid, Bool.eq_false_iff.mp hone⟩)
  rw [hsrem]
  exact intern_rebuilds hb h

theorem binary_rebuilds {op : BinaryOp} (h : b.Holds (.binary i op x y)) :
    Rebuilds (binary op x y) b (.binary i op x y) := by
  cases op with
  | shl => exact shift_rebuilds hb h (htidy.term h)
  | lshr => exact shift_rebuilds hb h (htidy.term h)
  | ashr => exact shift_rebuilds hb h (htidy.term h)
  | sdiv => exact sdiv_rebuilds hb htidy h
  | srem => exact srem_rebuilds hb htidy h

theorem compare_rebuilds {op : CompareOp} (h : b.Holds (.compare i op x y)) :
    Rebuilds (compare op x y) b (.compare i op x y) := by
  have hcompare : compare op x y = intern (.compare 0 op x y) := by
    unfold compare MonadTerms.compare
    split
    · rename_i a a' ha ha'
      exact (not_both_const (hb.proper h).2 ha ha').elim
    · exact if_neg (htidy.term h)
  rw [hcompare]
  exact intern_rebuilds hb h

theorem boolNot_rebuilds (h : b.Holds (.not i p)) : Rebuilds (boolNot p) b (.not i p) := by
  obtain ⟨hnot, hjunction, hcompare⟩ := htidy.term h
  have hnegate : boolNot p = intern (.not 0 p) := negate_of_stuck (hb.proper h) hnot hjunction hcompare
  rw [hnegate]
  exact intern_rebuilds hb h

end Nodes

end Build

/-! ### Steps of an evaluation that changes nothing -/

namespace EvalM

variable {m : Model} {α β : Type} {s : Evaluation}

/-- The invariant: the builder is consistent and tidy, and what is kept for a number is the node of that number. -/
structure Intact (s : Evaluation) : Prop where
  consistent : s.builder.Consistent
  tidy : s.builder.Tidy
  kept : ∀ {k : Ty} {id : Nat} {u : Term k}, s.memo[id]? = some ⟨k, u⟩ → s.builder.Holds u ∧ u.id = id

theorem Intact.fresh (hb : b.Consistent) (htidy : b.Tidy) : Intact { builder := b } := by
  refine ⟨hb, htidy, fun h => ?_⟩
  rw [Std.TreeMap.getElem?_emptyc] at h
  cases h

theorem Intact.grow (hs : Intact s) (hc : c.Consistent) (htidy : c.Tidy) (hle : s.builder ≤ c) :
    Intact { s with builder := c } := by
  refine ⟨hc, htidy, fun h => ?_⟩
  obtain ⟨hu, hid⟩ := hs.kept h
  exact ⟨hu.mono hle, hid⟩

theorem Intact.insert (hs : Intact s) {t : Term k} (ht : s.builder.Holds t) :
    Intact { s with memo := s.memo.insert t.id ⟨k, t⟩ } := by
  refine ⟨hs.consistent, hs.tidy, fun h => ?_⟩
  rcases eq_of_memo_insert h with ⟨hid, heq⟩ | h
  · cases heq
    exact ⟨ht, hid.symm⟩
  · exact hs.kept h

/-- The computation ends with a value, keeps the invariant and only adds to the builder. -/
inductive Returns (act : EvalM α) (s : Evaluation) (post : α → Builder → Prop) : Prop where
  | intro (a : α) (s' : Evaluation) (run : act s = (.ok a, s')) (intact : Intact s')
      (grows : s.builder ≤ s'.builder) (holds : post a s'.builder)

theorem Returns.pure (hs : Intact s) {a : α} {post : α → Builder → Prop} (h : post a s.builder) :
    Returns (Pure.pure a) s post :=
  ⟨a, s, rfl, hs, le_rfl, h⟩

theorem Returns.bind {act : EvalM α} {next : α → EvalM β} {mid : α → Builder → Prop} {post : β → Builder → Prop}
    (h : Returns act s mid)
    (hnext : ∀ a s', s.builder ≤ s'.builder → Intact s' → mid a s'.builder → Returns (next a) s' post) :
    Returns (act >>= next) s post := by
  obtain ⟨a, s', hrun, hs', hle, hmid⟩ := h
  obtain ⟨a', s'', hrun', hs'', hle', hpost⟩ := hnext a s' hle hs' hmid
  exact ⟨a', s'', (bind_of_ok hrun).trans hrun', hs'', hle.trans hle', hpost⟩

theorem Returns.imp {act : EvalM α} {post post' : α → Builder → Prop} (h : Returns act s post)
    (himp : ∀ a c, s.builder ≤ c → c.Consistent → c.Tidy → post a c → post' a c) : Returns act s post' := by
  obtain ⟨a, s', hrun, hs', hle, hpost⟩ := h
  exact ⟨a, s', hrun, hs', hle, himp a _ hle hs'.consistent hs'.tidy hpost⟩

/-- A step whose result is stated with the builder that it leaves. -/
theorem Returns.combine (hs : Intact s) {act : Build α} {post : α → Builder → Prop}
    (h : Build.Runs act s.builder fun a c => c.Tidy ∧ post a c) : Returns (EvalM.lift act) s post :=
  ⟨_, _, rfl, hs.grow h.consistent h.post.1 h.grows, h.grows, h.post.2⟩

theorem Returns.rebuild (hs : Intact s) {act : Build (Term k)} {t : Term k} (h : Build.Rebuilds act s.builder t) :
    Returns (EvalM.lift act) s fun u _ => u = t := by
  have hc := hs.consistent.of_sameTable h.table
  have hle := h.table.symm.le
  exact ⟨_, _, rfl, hs.grow hc (.of_sameTable h.table hs.tidy) hle, hle, h.same⟩

/-- What is kept for a node is the node. -/
theorem Returns.remember {t : Term k} {act : EvalM (Term k)} (hs : Intact s) (ht : s.builder.Holds t)
    (h : Returns act s fun u _ => u = t) : Returns (remember t.id act) s fun u _ => u = t := by
  cases hmemo : s.memo[t.id]? with
  | some r =>
      obtain ⟨l, u⟩ := r
      obtain ⟨hu, hid⟩ := hs.kept hmemo
      cases hs.consistent.distinct hu ht hid
      exact ⟨t, s, remember_of_some hmemo, hs, le_rfl, rfl⟩
  | none =>
      obtain ⟨u, s', hrun, hs', hle, rfl⟩ := h
      refine ⟨u, { s' with memo := s'.memo.insert u.id ⟨k, u⟩ }, ?_, hs'.insert (ht.mono hle), hle, rfl⟩
      rw [remember_of_none hmemo, bind_of_ok hrun]
      rfl

end EvalM

/-- The model binds none of the symbols. -/
def Model.Spares (m : Model) (names : List (String × Nat)) : Prop := ∀ s ∈ names, m.find? s.1 = none

theorem Model.Spares.mono {m : Model} {names names' : List (String × Nat)} (h : m.Spares names)
    (hsub : names' ⊆ names) : m.Spares names' := fun s hs => h s (hsub hs)

theorem Model.spares_append {m : Model} {names names' : List (String × Nat)} :
    m.Spares (names ++ names') ↔ m.Spares names ∧ m.Spares names' :=
  List.forall_mem_append

/-! ### Every node -/

namespace Term

open EvalM

variable {m : Model} {op : NaryOp} {o : Connective} {ts : List (Term .word)} {ps : List Cond}

/-- Evaluating the term answers with the term, whatever was evaluated before. -/
def Fixed (m : Model) (t : Term k) : Prop :=
  ∀ s : Evaluation, Intact s → s.builder.Holds t → m.Spares t.free → Returns (t.evalM m) s fun u _ => u = t

/-- Operands that are combined one after the other come to the operands. -/
theorem evalParts_returns (hfixed : ∀ t ∈ ts, Fixed m t) (hspares : ∀ t ∈ ts, m.Spares t.free)
    (hflat : ∀ t ∈ ts, t.parts op = [t]) :
    ∀ {s : Evaluation} {acc : Term .word}, Intact s → s.builder.HoldsAt w acc →
      (∀ t ∈ ts, s.builder.HoldsAt w t) →
      Returns (evalParts m op acc ts) s fun r c =>
        c.HoldsAt w r ∧ op.Equates w (r.parts op) (acc.parts op ++ ts) := by
  induction ts with
  | nil =>
      intro s acc hs hacc _
      rw [evalParts, List.append_nil]
      exact Returns.pure hs ⟨hacc, .refl op w _⟩
  | cons t ts ih =>
      intro s acc hs hacc hheld
      rw [List.forall_mem_cons] at hfixed hspares hflat hheld
      rw [evalParts]
      refine Returns.bind (hfixed.1 s hs hheld.1.held hspares.1) fun u s₁ hle₁ hs₁ hu => ?_
      subst hu
      have hacc₁ := hacc.mono hle₁
      have hu₁ := hheld.1.mono hle₁
      rw [refusing_binary (hacc₁.width.trans hu₁.width.symm)]
      refine Returns.bind (Returns.combine hs₁ (Build.nary_combines hs₁.consistent hs₁.tidy hacc₁ hu₁ op))
        fun acc' s₂ hle₂ hs₂ hacc' => ?_
      obtain ⟨hacc', hequates⟩ := hacc'
      refine (ih hfixed.2 hspares.2 hflat.2 hs₂ hacc' fun v hv => (hheld.2 v hv).mono (hle₁.trans hle₂)).imp
        fun r c _ _ _ hr => ?_
      obtain ⟨hr, hrest⟩ := hr
      refine ⟨hr, ?_⟩
      calc
        op.Equates w (r.parts op) (acc'.parts op ++ ts) := hrest
        op.Equates w _ (acc.parts op ++ u.parts op ++ ts) := hequates.append (.refl op w ts)
        op.Equates w _ (acc.parts op ++ u :: ts) := by
          rw [hflat.1, List.append_assoc]
          exact .refl op w _

/-- Conditions that are joined one after the other come to the conditions. -/
theorem evalConds_returns (hfixed : ∀ p ∈ ps, Fixed m p) (hspares : ∀ p ∈ ps, m.Spares p.free)
    (hflat : ∀ p ∈ ps, p.condParts o = [p]) :
    ∀ {s : Evaluation} {acc : Cond}, Intact s → s.builder.Holds acc → (∀ p ∈ ps, s.builder.Holds p) →
      Returns (evalConds m o acc ps) s fun r c =>
        c.Holds r ∧ o.Equates (r.condParts o) (acc.condParts o ++ ps) := by
  induction ps with
  | nil =>
      intro s acc hs hacc _
      rw [evalConds, List.append_nil]
      exact Returns.pure hs ⟨hacc, .of_mem_iff fun _ => Iff.rfl⟩
  | cons p ps ih =>
      intro s acc hs hacc hheld
      rw [List.forall_mem_cons] at hfixed hspares hflat hheld
      rw [evalConds]
      refine Returns.bind (hfixed.1 s hs hheld.1 hspares.1) fun q s₁ hle₁ hs₁ hq => ?_
      subst hq
      have hacc₁ := hacc.mono hle₁
      have hq₁ := hheld.1.mono hle₁
      refine Returns.bind (Returns.combine hs₁ (Build.join_combines hs₁.consistent hs₁.tidy hacc₁ hq₁ o))
        fun acc' s₂ hle₂ hs₂ hacc' => ?_
      obtain ⟨hacc', hequates⟩ := hacc'
      refine (ih hfixed.2 hspares.2 hflat.2 hs₂ hacc' fun r hr => (hheld.2 r hr).mono (hle₁.trans hle₂)).imp
        fun r c _ _ _ hr => ?_
      obtain ⟨hr, hrest⟩ := hr
      have hlist : acc.condParts o ++ q.condParts o ++ ps = acc.condParts o ++ q :: ps := by
        rw [hflat.1, List.append_assoc]
        rfl
      exact ⟨hr, hrest.trans (hlist ▸ hequates.append (.of_mem_iff fun _ => Iff.rfl))⟩

theorem fixed_nary {i : Nat} (hfixed : ∀ t ∈ ts, Fixed m t) : Fixed m (.nary i op ts) := by
  intro s hs h hspares
  obtain ⟨hwidths, v, hv, -⟩ := hs.consistent.proper h
  have hheld : ∀ t ∈ ts, s.builder.HoldsAt (firstWidth ts) t := fun t ht =>
    ⟨hs.consistent.children h t ht, hwidths t ht⟩
  have hspares' : ∀ t ∈ ts, m.Spares t.free := fun t ht =>
    hspares.mono fun n hn => mem_freeWords.mpr ⟨t, ht, hn⟩
  have hreduced : op.Reduced ts := hs.tidy.term h
  have hbits : ¬op.Absorbs (op.neutral (firstWidth ts)) := hwidths v hv ▸ hreduced.bits v hv
  have hflat := hreduced.flat
  generalize hw : firstWidth ts = w at hheld hbits
  obtain ⟨t, ts, rfl⟩ := List.exists_cons_of_ne_nil (List.ne_nil_of_mem hv)
  rw [List.forall_mem_cons] at hfixed hheld hspares' hflat
  rw [evalM]
  refine Returns.remember (t := .nary i op (t :: ts)) hs h ?_
  refine Returns.bind (hfixed.1 s hs hheld.1.held hspares'.1) fun u s₁ hle hs₁ hu => ?_
  subst hu
  refine (evalParts_returns hfixed.2 hspares'.2 hflat.2 hs₁ (hheld.1.mono hle)
    fun v hv => (hheld.2 v hv).mono hle).imp fun r c hle' hc htidy hr => ?_
  obtain ⟨hr, hequates⟩ := hr
  have hnode : c.HoldsAt w (.nary i op (u :: ts)) := ⟨h.mono (hle.trans hle'), hw⟩
  refine eq_of_equates hc htidy hbits hr hnode ?_
  rw [hflat.1] at hequates
  rw [parts, if_pos rfl]
  exact hequates

theorem fixed_junction {i : Nat} (hfixed : ∀ p ∈ ps, Fixed m p) : Fixed m (.junction i o ps) := by
  intro s hs h hspares
  obtain ⟨-, -, hflat⟩ := hs.tidy.term h
  have hheld : ∀ p ∈ ps, s.builder.Holds p := hs.consistent.children h
  have hspares' : ∀ p ∈ ps, m.Spares p.free := fun p hp =>
    hspares.mono fun n hn => mem_freeConds.mpr ⟨p, hp, hn⟩
  have hrun := Build.truth_runs hs.consistent o.unit []
  have hstart : Build.Runs (Build.truth o.unit) s.builder fun p c =>
      c.Tidy ∧ c.Holds p ∧ p.truth? = some o.unit :=
    hrun.of_post ⟨Build.intern_tidy hs.tidy trivial, hrun.post.1.held, Build.truth?_truth hs.consistent o.unit⟩
  rw [evalM]
  refine Returns.remember (t := .junction i o ps) hs h ?_
  -- The conditions are joined onto the unit of the connective, which counts for nothing among them.
  refine Returns.bind (Returns.combine hs hstart) fun start s₁ hle hs₁ hstart => ?_
  obtain ⟨hstart, hunit⟩ := hstart
  refine (evalConds_returns hfixed hspares' hflat hs₁ hstart fun p hp => (hheld p hp).mono hle).imp
    fun r c hle' hc htidy hr => ?_
  obtain ⟨hr, hequates⟩ := hr
  refine eq_of_cond_equates hc htidy hr (h.mono (hle.trans hle')) (hequates.trans ?_)
  rw [condParts_of_truth? hunit, condParts, if_pos rfl]
  exact (Connective.Equates.unit_append hunit ps).symm

/-- Evaluating two operands that the model spares and putting a term together from them again. -/
theorem fixed_pair {x y : Term .word} (hx : Fixed m x) (hy : Fixed m y) {s : Evaluation} (hs : Intact s)
    (hheld : s.builder.Holds x ∧ s.builder.Holds y) (hspares : m.Spares (x.free ++ y.free))
    (hwidth : y.width = x.width) {make : Term .word → Term .word → Build (Term k)} {t : Term k}
    (hmake : ∀ c, s.builder ≤ c → c.Consistent → c.Tidy → Build.Rebuilds (make x y) c t) :
    Returns (do
      let u ← x.evalM m
      let v ← y.evalM m
      refusing (Build.Checked.binary make u v)) s fun r _ => r = t := by
  rw [Model.spares_append] at hspares
  refine Returns.bind (hx s hs hheld.1 hspares.1) fun u s₁ hle₁ hs₁ hu => ?_
  refine Returns.bind (hy s₁ hs₁ (hheld.2.mono hle₁) hspares.2) fun v s₂ hle₂ hs₂ hv => ?_
  rw [hu, hv, refusing_binary hwidth.symm]
  exact Returns.rebuild hs₂ (hmake s₂.builder (hle₁.trans hle₂) hs₂.consistent hs₂.tidy)

theorem fixed (t : Term k) : Fixed m t := by
  induction t using Term.induct with
  | symbol i name width =>
      intro s hs _ hspares
      rw [evalM, hspares (name, width) (List.mem_singleton_self _)]
      exact Returns.pure hs rfl
  | const i c =>
      intro s hs _ _
      rw [evalM_of_isConst m rfl]
      exact Returns.pure hs rfl
  | ite i p x y hp hx hy =>
      intro s hs h hspares
      obtain ⟨hp₀, hx₀, hy₀⟩ := hs.consistent.children h
      rw [free, Model.spares_append, Model.spares_append] at hspares
      rw [evalM]
      refine Returns.remember (t := .ite i p x y) hs h ?_
      refine Returns.bind (hp s hs hp₀ hspares.1.1) fun q s₁ hle₁ hs₁ hq => ?_
      refine Returns.bind (hx s₁ hs₁ (hx₀.mono hle₁) hspares.1.2) fun u s₂ hle₂ hs₂ hu => ?_
      refine Returns.bind (hy s₂ hs₂ (hy₀.mono (hle₁.trans hle₂)) hspares.2) fun v s₃ hle₃ hs₃ hv => ?_
      rw [hq, hu, hv, refusing_ite (hs.consistent.proper h).1.symm]
      exact Returns.rebuild hs₃
        (Build.ite_rebuilds hs₃.consistent hs₃.tidy (h.mono (hle₁.trans (hle₂.trans hle₃))))
  | unary i op x hx =>
      intro s hs h hspares
      rw [evalM]
      refine Returns.remember (t := .unary i op x) hs h ?_
      refine Returns.bind (hx s hs (hs.consistent.children h) hspares) fun u s₁ hle₁ hs₁ hu => ?_
      rw [hu]
      exact Returns.rebuild hs₁ (Build.unary_rebuilds hs₁.consistent hs₁.tidy (h.mono hle₁))
  | binary i op x y hx hy =>
      intro s hs h hspares
      rw [evalM]
      exact Returns.remember (t := .binary i op x y) hs h (fixed_pair hx hy hs (hs.consistent.children h) hspares
        (hs.consistent.proper h).1 fun c hle hc htidy => Build.binary_rebuilds hc htidy (h.mono hle))
  | nary i op ts hts => exact fixed_nary hts
  | truth i v =>
      intro s hs _ _
      rw [evalM_of_isConst m rfl]
      exact Returns.pure hs rfl
  | not i p hp =>
      intro s hs h hspares
      rw [evalM]
      refine Returns.remember (t := .not i p) hs h ?_
      refine Returns.bind (hp s hs (hs.consistent.children h) hspares) fun q s₁ hle₁ hs₁ hq => ?_
      rw [hq]
      exact Returns.rebuild hs₁ (Build.boolNot_rebuilds hs₁.consistent hs₁.tidy (h.mono hle₁))
  | compare i op x y hx hy =>
      intro s hs h hspares
      rw [evalM]
      exact Returns.remember (t := .compare i op x y) hs h (fixed_pair hx hy hs (hs.consistent.children h) hspares
        (hs.consistent.proper h).1 fun c hle hc htidy => Build.compare_rebuilds hc htidy (h.mono hle))
  | junction i o ps hps => exact fixed_junction hps

end Term

/-- In every builder that can come about, a model that binds none of a term's symbols evaluates the term to itself,
under the number that it has. -/
theorem evaluation_fixes_unbound_terms {scatter : List Nat → Nat} {b : Builder} (hb : Evolves { scatter } b) {k : Ty}
    {t : Term k} (ht : b.Holds t) {m : Model} (hm : ∀ s ∈ t.free, m.find? s.1 = none) :
    (Build.eval m t b).1 = .ok t := by
  have hs : EvalM.Intact { builder := b } :=
    .fresh hb.consistent (hb.tidy consistent_empty tidy_empty)
  obtain ⟨u, s, hrun, -, -, rfl⟩ := t.fixed { builder := b } hs ht hm
  exact congrArg Prod.fst hrun

/-- A sum of three operands, the first two of which are not held as a sum, under a model that binds another symbol,
in a builder whose fingerprints all collide. -/
theorem evaluation_fixes_unbound_terms_of_collisions :
    let x : Term .word := .symbol 1 "x" 8
    let y : Term .word := .symbol 2 "y" 8
    let u : Term .word := .nary 3 .add [x, y]
    let t : Term .word := .nary 4 .add [x, x, y]
    let b₁ := ((Request.nary .add x y).run twoSymbols).2
    let b := ((Request.nary .add u x).run b₁).2
    let m : Model := ⟨[("z", .ofInt 8 5)]⟩
    Evolves { scatter := fun _ => 0 } b ∧ b.Holds t ∧ (∀ s ∈ t.free, m.find? s.1 = none) ∧
      (Build.eval m t b).1 = .ok t := by
  intro x y u t b₁ b m
  obtain ⟨h₀, hx₀, hy₀⟩ := twoSymbols_spec
  have h₁ : Evolves { scatter := fun _ => 0 } b₁ := h₀.request (.nary .add x y) ⟨hx₀, hy₀⟩
  have hu₁ : b₁.Holds u := Request.holds_of_run h₀.consistent ⟨hx₀, hy₀⟩ rfl rfl
  have hx₁ : b₁.Holds x := hx₀.mono (Request.runs h₀.consistent (.nary .add x y) ⟨hx₀, hy₀⟩).grows
  have h : Evolves { scatter := fun _ => 0 } b := h₁.request (.nary .add u x) ⟨hu₁, hx₁⟩
  have ht : b.Holds t := Request.holds_of_run h₁.consistent ⟨hu₁, hx₁⟩ rfl rfl
  have hm : ∀ s ∈ t.free, m.find? s.1 = none := by decide
  exact ⟨h, ht, hm, evaluation_fixes_unbound_terms h ht hm⟩

end Pathwise
