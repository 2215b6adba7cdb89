import Pathwise.Proofs.Negation
import Pathwise.Term.Evaluate

/-! Evaluation is substitution. Evaluating a held term under a model fails exactly if the model gives one
of its symbols a word of another width. Otherwise the result stands, under every valuation, for the term
under that valuation overridden by the model, and only symbols that the model does not bind are left. A
held term without symbols is a constant, so a model that binds every symbol gives a value.

The results that evaluation keeps by number stay usable because a number belongs to one held term; this
is part of the invariant `EvalM.Sound`, which every step of `EvalM.Yields` hands on. -/

namespace Pathwise

open Builder

/-! ### Substitution -/

/-- The valuation with the model's words put in, each for the symbol of its name and width. -/
def Valuation.override (ρ : Valuation) (m : Model) : Valuation := fun name w =>
  match m.find? name with
  | some c => if c.width = w then c.bits w else ρ name w
  | none => ρ name w

namespace Model

/-- Every word for one of the symbols has the symbol's width. -/
def Fits (m : Model) (names : List (String × Nat)) : Prop :=
  ∀ s ∈ names, ∀ c, m.find? s.1 = some c → c.width = s.2

/-- The error names one of the symbols and the model's word for it, which has another width. -/
def Misfit (m : Model) (names : List (String × Nat)) (e : EvalError) : Prop :=
  ∃ s ∈ names, ∃ c, m.find? s.1 = some c ∧ c.width ≠ s.2 ∧ e = .symbolWidth s.1 c.width s.2

/-- The symbols that the model leaves free. -/
def unbound (m : Model) (names : List (String × Nat)) : List (String × Nat) :=
  names.filter fun s => (m.find? s.1).isNone

variable {m : Model} {names names' : List (String × Nat)} {e : EvalError}

theorem Fits.append (h : m.Fits names) (h' : m.Fits names') : m.Fits (names ++ names') := fun s hs =>
  (List.mem_append.mp hs).elim (h s) (h' s)

theorem Fits.mono (h : m.Fits names) (hsub : names' ⊆ names) : m.Fits names' := fun s hs => h s (hsub hs)

theorem Misfit.mono (h : m.Misfit names e) (hsub : names ⊆ names') : m.Misfit names' e := by
  obtain ⟨s, hs, hrest⟩ := h
  exact ⟨s, hsub hs, hrest⟩

theorem Misfit.not_fits (h : m.Misfit names e) : ¬m.Fits names := by
  obtain ⟨s, hs, c, hc, hwidth, -⟩ := h
  exact fun hfits => hwidth (hfits s hs c hc)

theorem mem_unbound {s : String × Nat} : s ∈ m.unbound names ↔ s ∈ names ∧ m.find? s.1 = none := by
  rw [unbound, List.mem_filter, Option.isNone_iff_eq_none]

theorem unbound_mono (h : names ⊆ names') : m.unbound names ⊆ m.unbound names' := fun _ hs =>
  mem_unbound.mpr ⟨h (mem_unbound.mp hs).1, (mem_unbound.mp hs).2⟩

theorem append_subset_unbound {used used' : List (String × Nat)} (h : used ⊆ m.unbound names)
    (h' : used' ⊆ m.unbound names') : used ++ used' ⊆ m.unbound (names ++ names') :=
  List.append_subset.mpr
    ⟨List.Subset.trans h (unbound_mono (List.subset_append_left _ _)),
      List.Subset.trans h' (unbound_mono (List.subset_append_right _ _))⟩

end Model

/-- `u` is held and stands for `t` with the model's words put in. -/
def Builder.Replaces (b : Builder) (m : Model) : {k : Ty} → Term k → Term k → Prop
  | .word, t, u => b.MeansWord u (fun ρ => t.bits (ρ.override m) t.width) (m.unbound t.free)
  | .bool, p, q => b.MeansCond q (fun ρ => p.holds (ρ.override m)) (m.unbound p.free)

theorem Builder.Replaces.mono {b c : Builder} (h : b ≤ c) {m : Model} {k : Ty} {t u : Term k}
    (ht : b.Replaces m t u) : c.Replaces m t u := by
  cases k with
  | word => exact MeansWord.mono h ht
  | bool => exact MeansCond.mono h ht

theorem Builder.Replaces.held {b : Builder} {m : Model} {k : Ty} {t u : Term k} (h : b.Replaces m t u) :
    b.Holds u := by
  cases k with
  | word => exact MeansWord.toHoldsAt h |>.held
  | bool => exact MeansCond.held h

theorem Builder.Replaces.free {b : Builder} {m : Model} {k : Ty} {t u : Term k} (h : b.Replaces m t u) :
    u.free ⊆ m.unbound t.free := by
  cases k with
  | word => exact MeansWord.free h
  | bool => exact MeansCond.free h

theorem Builder.Replaces.means {b : Builder} {m : Model} {t u : Term .word} {w : Nat} (h : b.Replaces m t u)
    (hw : t.width = w) : b.MeansWord u (fun ρ => t.bits (ρ.override m) w) (m.unbound t.free) := by
  subst hw
  exact h

/-! ### Steps of an evaluation -/

namespace EvalM

variable {m : Model} {α β : Type} {s : Evaluation} {names names' : List (String × Nat)}

/-- The invariant of an evaluation: the builder is consistent, and every kept result belongs to the held
term of its number. -/
structure Sound (m : Model) (s : Evaluation) : Prop where
  consistent : s.builder.Consistent
  kept : ∀ {k : Ty} {id : Nat} {u : Term k}, s.memo[id]? = some ⟨k, u⟩ →
    ∃ t : Term k, t.id = id ∧ s.builder.Holds t ∧ m.Fits t.free ∧ s.builder.Replaces m t u

/-- The computation keeps the invariant and only adds to the builder. It ends with `post` if the model
fits the symbols, and otherwise with an error about one of them. -/
inductive Yields (m : Model) (names : List (String × Nat)) (act : EvalM α) (s : Evaluation)
    (post : α → Builder → Prop) : Prop where
  | value (a : α) (s' : Evaluation) (run : act s = (.ok a, s')) (sound : Sound m s')
      (grows : s.builder ≤ s'.builder) (fits : m.Fits names) (holds : post a s'.builder)
  | failure (e : EvalError) (s' : Evaluation) (run : act s = (.error e, s')) (sound : Sound m s')
      (grows : s.builder ≤ s'.builder) (misfit : m.Misfit names e)

theorem Yields.pure (hs : Sound m s) {a : α} {post : α → Builder → Prop} (hfits : m.Fits names)
    (h : post a s.builder) : Yields m names (Pure.pure a) s post :=
  .value a s rfl hs le_rfl hfits h

theorem Yields.bind {act : EvalM α} {next : α → EvalM β} {mid : α → Builder → Prop}
    {post : β → Builder → Prop} (h : Yields m names act s mid)
    (hnext : ∀ a s', s.builder ≤ s'.builder → Sound m s' → mid a s'.builder →
      Yields m names' (next a) s' post) :
    Yields m (names ++ names') (act >>= next) s post := by
  rcases h with ⟨a, s', hrun, hs', hle, hfits, hmid⟩ | ⟨e, s', hrun, hs', hle, hmisfit⟩
  · rcases hnext a s' hle hs' hmid with ⟨a', s'', hrun', hs'', hle', hfits', hpost⟩ |
      ⟨e, s'', hrun', hs'', hle', hmisfit⟩
    · exact .value a' s'' ((bind_of_ok hrun).trans hrun') hs'' (hle.trans hle') (hfits.append hfits') hpost
    · exact .failure e s'' ((bind_of_ok hrun).trans hrun') hs'' (hle.trans hle')
        (hmisfit.mono (List.subset_append_right _ _))
  · exact .failure e s' (bind_of_error hrun) hs' hle (hmisfit.mono (List.subset_append_left _ _))

theorem Yields.imp {act : EvalM α} {post post' : α → Builder → Prop} (h : Yields m names act s post)
    (hsame : ∀ x, x ∈ names ↔ x ∈ names')
    (himp : ∀ a c, s.builder ≤ c → c.Consistent → post a c → post' a c) : Yields m names' act s post' := by
  rcases h with ⟨a, s', hrun, hs', hle, hfits, hpost⟩ | ⟨e, s', hrun, hs', hle, hmisfit⟩
  · exact .value a s' hrun hs' hle (hfits.mono fun x => (hsame x).mpr) (himp a _ hle hs'.consistent hpost)
  · exact .failure e s' hrun hs' hle (hmisfit.mono fun x => (hsame x).mp)

/-- Kept results outlive a growing builder. -/
theorem Sound.grow (hs : Sound m s) {c : Builder} (hc : c.Consistent) (hle : s.builder ≤ c) :
    Sound m { s with builder := c } := by
  refine ⟨hc, fun h => ?_⟩
  obtain ⟨t, hid, ht, hfits, hu⟩ := hs.kept h
  exact ⟨t, hid, ht.mono hle, hfits, hu.mono hle⟩

theorem Yields.lift (hs : Sound m s) {act : Build α} {post : α → Builder → Prop}
    (h : Build.Runs act s.builder post) : Yields m [] (lift act) s post :=
  .value _ _ rfl (hs.grow h.consistent h.grows) h.grows (fun _ hmem => absurd hmem List.not_mem_nil) h.post

/-- Operands of one width are not refused. -/
theorem refusing_binary {k : Ty} {make : Term .word → Term .word → Build (Term k)} {x y : Term .word}
    (h : x.width = y.width) : refusing (Build.Checked.binary make x y) = lift (make x y) := by
  rw [Build.Checked.binary, if_pos h]
  rfl

theorem refusing_ite {guard : Cond} {yes no : Term .word} (h : yes.width = no.width) :
    refusing (Build.Checked.ite guard yes no) = lift (Build.ite guard yes no) := by
  rw [Build.Checked.ite, if_pos h]
  rfl

theorem sound_fresh {b : Builder} (hb : b.Consistent) : Sound m { builder := b } := by
  refine ⟨hb, fun h => ?_⟩
  rw [Std.TreeMap.getElem?_emptyc] at h
  cases h

theorem eq_of_memo_insert {memo : Memo} {id id' : Nat} {r r' : Σ k, Term k} (h : (memo.insert id r)[id']? = some r') :
    id' = id ∧ r' = r ∨ memo[id']? = some r' := by
  rw [Std.TreeMap.getElem?_insert] at h
  split_ifs at h with hid
  · cases h
    exact Or.inl ⟨(Nat.compare_eq_eq.mp hid).symm, rfl⟩
  · exact Or.inr h

theorem Sound.insert (hs : Sound m s) {k : Ty} {t u : Term k} (ht : s.builder.Holds t)
    (hfits : m.Fits t.free) (hu : s.builder.Replaces m t u) :
    Sound m { s with memo := s.memo.insert t.id ⟨k, u⟩ } := by
  refine ⟨hs.consistent, fun h => ?_⟩
  rcases eq_of_memo_insert h with ⟨hid, heq⟩ | h
  · cases heq
    exact ⟨t, hid.symm, ht, hfits, hu⟩
  · exact hs.kept h

theorem remember_of_some {k : Ty} {id : Nat} {act : EvalM (Term k)} {u : Term k}
    (h : s.memo[id]? = some ⟨k, u⟩) : EvalM.remember id act s = (.ok u, s) := by
  have hget : (get : EvalM Evaluation) s = (.ok s, s) := rfl
  rw [EvalM.remember, bind_of_ok hget, h]
  exact congrFun (dif_pos rfl) s

theorem remember_of_other {k l : Ty} {id : Nat} {act : EvalM (Term k)} {u : Term l} (h : s.memo[id]? = some ⟨l, u⟩)
    (hsort : l ≠ k) : EvalM.remember id act s = (.error (.otherSort id), s) := by
  have hget : (get : EvalM Evaluation) s = (.ok s, s) := rfl
  rw [EvalM.remember, bind_of_ok hget, h]
  exact congrFun (dif_neg hsort) s

theorem remember_of_none {k : Ty} {id : Nat} {act : EvalM (Term k)} (h : s.memo[id]? = none) :
    EvalM.remember id act s = (do
      let u ← act
      modify fun s => { s with memo := s.memo.insert id ⟨k, u⟩ }
      return u : EvalM (Term k)) s := by
  have hget : (get : EvalM Evaluation) s = (.ok s, s) := rfl
  rw [EvalM.remember, bind_of_ok hget, h]

/-- A node whose result may have been kept has the result of the computation either way. -/
theorem Yields.remember {k : Ty} {t : Term k} {act : EvalM (Term k)} (hs : Sound m s)
    (ht : s.builder.Holds t) (h : Yields m t.free act s fun u c => c.Replaces m t u) :
    Yields m t.free (remember t.id act) s fun u c => c.Replaces m t u := by
  cases hmemo : s.memo[t.id]? with
  | some r =>
      obtain ⟨l, u⟩ := r
      obtain ⟨t', hid, ht', hfits, hu⟩ := hs.kept hmemo
      -- a number belongs to one held term, so the kept result has the sort of the node
      cases hs.consistent.distinct ht' ht hid
      exact .value u s (remember_of_some hmemo) hs le_rfl hfits hu
  | none =>
      rcases h with ⟨u, s', hact, hs', hle, hfits, hu⟩ | ⟨e, s', hact, hs', hle, hmisfit⟩
      · refine .value u { s' with memo := s'.memo.insert t.id ⟨k, u⟩ } ?_ (hs'.insert (ht.mono hle) hfits hu) hle
          hfits hu
        rw [remember_of_none hmemo, bind_of_ok hact]
        rfl
      · refine .failure e s' ?_ hs' hle hmisfit
        rw [remember_of_none hmemo, bind_of_error hact]

end EvalM

/-! ### Every node -/

namespace Term

open EvalM

variable {m : Model} {s : Evaluation}

/-- What evaluating a term does, whatever was evaluated before. -/
def Evaluable (m : Model) {k : Ty} (t : Term k) : Prop :=
  ∀ s : Evaluation, Sound m s → s.builder.Holds t →
    Yields m t.free (t.evalM m) s fun u c => c.Replaces m t u

theorem evaluable_symbol (i : Nat) (name : String) (width : Nat) : Evaluable m (.symbol i name width) := by
  intro s hs ht
  rw [evalM]
  cases hfind : m.find? name with
  | none =>
      refine Yields.pure hs (fun x hx c hc => ?_) ⟨⟨ht, rfl⟩, fun ρ => ?_, fun x hx => ?_⟩
      · rw [List.mem_singleton.mp hx, hfind] at hc
        cases hc
      · rw [bits_symbol, bits_symbol, Valuation.override, hfind]
      · rw [Model.mem_unbound, List.mem_singleton.mp hx]
        exact ⟨List.mem_singleton.mpr rfl, hfind⟩
  | some c =>
      dsimp only
      split_ifs with hwidth
      · subst hwidth
        have hbits : ∀ ρ, c.bits c.width = (Term.symbol i name c.width).bits (Valuation.override ρ m) c.width := by
          intro ρ
          rw [bits_symbol, Valuation.override, hfind]
          exact (if_pos rfl).symm
        have hconst : Build.Runs (Build.const c) s.builder fun u c' =>
            c'.Replaces m (.symbol i name c.width) u := Build.const_runs_of_bits hs.consistent rfl hbits
        obtain ⟨u, s', hrun, hs', hle, -, hu⟩ | ⟨e, s', hrun, hs', hle, hmisfit⟩ := Yields.lift hs hconst
        · refine .value u s' hrun hs' hle (fun x hx c' hc' => ?_) hu
          rw [List.mem_singleton.mp hx] at hc' ⊢
          rw [hfind] at hc'
          cases hc'
          rfl
        · exact .failure e s' hrun hs' hle (hmisfit.mono (List.nil_subset _))
      · exact .failure _ s rfl hs le_rfl ⟨(name, width), List.mem_singleton.mpr rfl, c, hfind, hwidth, rfl⟩

theorem evaluable_ite (i : Nat) {cond : Cond} {yes no : Term .word} (hcond : Evaluable m cond)
    (hyes : Evaluable m yes) (hno : Evaluable m no) : Evaluable m (.ite i cond yes no) := by
  intro s hs ht
  obtain ⟨hheld, hheld', hheld''⟩ := hs.consistent.children ht
  have hwidth : no.width = yes.width := (hs.consistent.proper ht).1
  refine Yields.remember hs ht ?_
  suffices h : Yields m (cond.free ++ (yes.free ++ (no.free ++ []))) _ s _ from
    h.imp (by simp [free]) fun _ _ _ _ h => h
  refine Yields.bind (hcond s hs hheld) fun g s₁ hle₁ hs₁ hg => ?_
  refine Yields.bind (hyes s₁ hs₁ (hheld'.mono hle₁)) fun a s₂ hle₂ hs₂ ha => ?_
  refine Yields.bind (hno s₂ hs₂ (hheld''.mono (hle₁.trans hle₂))) fun d s₃ hle₃ hs₃ hd => ?_
  have hg := hg.mono (hle₂.trans hle₃)
  have ha := (ha.mono hle₃).means rfl
  have hd := hd.means hwidth
  rw [refusing_ite (ha.width.trans hd.width.symm)]
  refine Yields.lift hs₃ ((Build.ite_runs hs₃.consistent hg.held ha.toHoldsAt hd.toHoldsAt).imp
    fun u c _ _ hu => hu.congr (fun ρ => ?_) ?_)
  · rw [hg.holds, ha.bits, hd.bits]
    rfl
  · exact Model.append_subset_unbound (Model.append_subset_unbound hg.free ha.free) hd.free

theorem evaluable_unary (i : Nat) (op : UnaryOp) {arg : Term .word} (harg : Evaluable m arg) :
    Evaluable m (.unary i op arg) := by
  intro s hs ht
  refine Yields.remember hs ht ?_
  suffices h : Yields m (arg.free ++ []) _ s _ from h.imp (by simp [free]) fun _ _ _ _ h => h
  refine Yields.bind (harg s hs (hs.consistent.children ht)) fun a s₁ hle₁ hs₁ ha => ?_
  have ha := ha.means rfl
  refine Yields.lift hs₁ ((Build.unary_runs hs₁.consistent op ha.toHoldsAt).imp
    fun u c _ _ hu => hu.congr (fun ρ => ?_) ha.free)
  rw [ha.bits]
  rfl

/-- Evaluating two operands and putting a term together from what comes of them. -/
theorem evalPair_yields {left right : Term .word} (hleft : Evaluable m left) (hright : Evaluable m right)
    (hs : Sound m s) (hheld : s.builder.Holds left) (hheld' : s.builder.Holds right) {k : Ty}
    {make : Term .word → Term .word → Build (Term k)} {post : Term k → Builder → Prop}
    (hwidth : right.width = left.width)
    (hmake : ∀ a d c, c.Consistent → c.Replaces m left a → c.Replaces m right d → Build.Runs (make a d) c post) :
    Yields m (left.free ++ right.free) (do
      let a ← left.evalM m
      let d ← right.evalM m
      refusing (Build.Checked.binary make a d)) s post := by
  suffices h : Yields m (left.free ++ (right.free ++ [])) _ s post from h.imp (by simp) fun _ _ _ _ h => h
  refine Yields.bind (hleft s hs hheld) fun a s₁ hle₁ hs₁ ha => ?_
  refine Yields.bind (hright s₁ hs₁ (hheld'.mono hle₁)) fun d s₂ hle₂ hs₂ hd => ?_
  rw [refusing_binary ((ha.means rfl).width.trans (hd.means hwidth).width.symm)]
  exact Yields.lift hs₂ (hmake a d s₂.builder hs₂.consistent (ha.mono hle₂) hd)

theorem evaluable_binary (i : Nat) (op : BinaryOp) {left right : Term .word} (hleft : Evaluable m left)
    (hright : Evaluable m right) : Evaluable m (.binary i op left right) := by
  intro s hs ht
  obtain ⟨hheld, hheld'⟩ := hs.consistent.children ht
  have hwidth := (hs.consistent.proper ht).1
  refine Yields.remember hs ht (evalPair_yields hleft hright hs hheld hheld' hwidth fun a d c hc ha hd => ?_)
  have ha := ha.means rfl
  have hd := hd.means hwidth
  refine (Build.binary_runs hc ha.toHoldsAt hd.toHoldsAt op).imp
    fun u c _ _ hu => hu.congr (fun ρ => ?_) (Model.append_subset_unbound ha.free hd.free)
  rw [ha.bits, hd.bits]
  rfl

theorem evaluable_compare (i : Nat) (op : CompareOp) {left right : Term .word} (hleft : Evaluable m left)
    (hright : Evaluable m right) : Evaluable m (.compare i op left right) := by
  intro s hs ht
  obtain ⟨hheld, hheld'⟩ := hs.consistent.children ht
  have hwidth := (hs.consistent.proper ht).1
  refine Yields.remember hs ht (evalPair_yields hleft hright hs hheld hheld' hwidth fun a d c hc ha hd => ?_)
  have ha := ha.means rfl
  have hd := hd.means hwidth
  refine (Build.compare_runs hc op ha.toHoldsAt hd.toHoldsAt).imp
    fun u c _ _ hu => hu.congr (fun ρ => ?_) (Model.append_subset_unbound ha.free hd.free)
  rw [ha.bits, hd.bits]
  rfl

theorem evaluable_not (i : Nat) {arg : Cond} (harg : Evaluable m arg) : Evaluable m (.not i arg) := by
  intro s hs ht
  refine Yields.remember hs ht ?_
  suffices h : Yields m (arg.free ++ []) _ s _ from h.imp (by simp [free]) fun _ _ _ _ h => h
  refine Yields.bind (harg s hs (hs.consistent.children ht)) fun a s₁ hle₁ hs₁ ha => ?_
  refine Yields.lift hs₁ ((Build.boolNot_runs hs₁.consistent ha.held).imp
    fun u c _ _ hu => hu.congr (fun ρ => ?_) ha.free)
  rw [ha.holds]
  rfl

/-- Evaluating the further operands of a sum, product or bit operation. -/
theorem evalParts_yields (op : NaryOp) {w : Nat} {names : List (String × Nat)} {ts : List (Term .word)}
    (hts : ∀ t ∈ ts, Evaluable m t ∧ t.width = w) :
    ∀ {s : Evaluation} {acc : Term .word} {f : Valuation → BitVec w}, Sound m s →
      (∀ t ∈ ts, s.builder.Holds t) → s.builder.MeansWord acc f (m.unbound names) →
      Yields m (freeWords ts) (evalParts m op acc ts) s fun u c =>
        c.MeansWord u (fun ρ => op.bits (f ρ) (op.total (ts.map (bits (ρ.override m) w))))
          (m.unbound (names ++ freeWords ts)) := by
  induction ts generalizing names with
  | nil =>
      intro s acc f hs _ hacc
      rw [evalParts]
      refine Yields.pure hs (fun _ h => absurd h List.not_mem_nil) (hacc.congr (fun ρ => ?_) ?_)
      · exact (op.bits_neutral _).symm
      · exact Model.unbound_mono (List.subset_append_left _ _)
  | cons t ts ih =>
      intro s acc f hs hheld hacc
      rw [List.forall_mem_cons] at hts hheld
      rw [evalParts]
      refine Yields.bind (hts.1.1 s hs hheld.1) fun a s₁ hle₁ hs₁ ha => ?_
      have ha := ha.means hts.1.2
      have hacc := hacc.mono hle₁
      suffices h : Yields m ([] ++ freeWords ts) _ s₁ _ from h.imp (by simp) fun _ _ _ _ h => h
      rw [refusing_binary (hacc.width.trans ha.width.symm)]
      refine Yields.bind (Yields.lift hs₁ (Build.nary_runs hs₁.consistent hacc.toHoldsAt ha.toHoldsAt op))
        fun acc' s₂ hle₂ hs₂ hacc' => ?_
      have hacc' : s₂.builder.MeansWord acc' (fun ρ => op.bits (f ρ) (t.bits (ρ.override m) w))
          (m.unbound (names ++ t.free)) :=
        hacc'.congr (fun ρ => by rw [hacc.bits, ha.bits]) (Model.append_subset_unbound hacc.free ha.free)
      refine (ih hts.2 hs₂ (fun u hu => (hheld.2 u hu).mono (hle₁.trans hle₂)) hacc').imp (fun _ => Iff.rfl)
        fun u c _ _ hu => hu.congr (fun ρ => ?_) ?_
      · rw [List.map_cons, NaryOp.total_cons, NaryOp.bits_assoc]
      · rw [freeWords, List.append_assoc]
        exact List.Subset.refl _

theorem evaluable_nary (i : Nat) (op : NaryOp) {args : List (Term .word)} (hargs : ∀ t ∈ args, Evaluable m t) :
    Evaluable m (.nary i op args) := by
  intro s hs ht
  obtain ⟨hwidths, u, hu, -⟩ := hs.consistent.proper ht
  have hheld : ∀ t ∈ args, s.builder.Holds t := hs.consistent.children ht
  obtain ⟨t, ts, rfl⟩ := List.exists_cons_of_ne_nil (List.ne_nil_of_mem hu)
  rw [List.forall_mem_cons] at hargs hheld hwidths
  refine Yields.remember hs ht ?_
  refine Yields.bind (hargs.1 s hs hheld.1) fun a s₁ hle₁ hs₁ ha => ?_
  refine (evalParts_yields op (fun v hv => ⟨hargs.2 v hv, hwidths.2 v hv⟩) hs₁
    (fun v hv => (hheld.2 v hv).mono hle₁) (ha.means rfl)).imp (fun _ => Iff.rfl)
    fun v c _ _ hv => hv.congr (fun ρ => ?_) (List.Subset.refl _)
  rw [bits_nary]
  rfl

theorem evalConds_yields (op : Connective) {names : List (String × Nat)} {ps : List Cond}
    (hps : ∀ p ∈ ps, Evaluable m p) :
    ∀ {s : Evaluation} {acc : Cond} {f : Valuation → Bool}, Sound m s →
      (∀ p ∈ ps, s.builder.Holds p) → s.builder.MeansCond acc f (m.unbound names) →
      Yields m (freeConds ps) (evalConds m op acc ps) s fun q c =>
        c.MeansCond q (fun ρ => op.apply (f ρ) (op.total (ps.map (holds (ρ.override m)))))
          (m.unbound (names ++ freeConds ps)) := by
  induction ps generalizing names with
  | nil =>
      intro s acc f hs _ hacc
      rw [evalConds]
      refine Yields.pure hs (fun _ h => absurd h List.not_mem_nil) (hacc.congr (fun ρ => ?_) ?_)
      · cases op with
        | and => exact (Bool.and_true _).symm
        | or => exact (Bool.or_false _).symm
      · exact Model.unbound_mono (List.subset_append_left _ _)
  | cons p ps ih =>
      intro s acc f hs hheld hacc
      rw [List.forall_mem_cons] at hps hheld
      rw [evalConds]
      refine Yields.bind (hps.1 s hs hheld.1) fun a s₁ hle₁ hs₁ ha => ?_
      have hacc := hacc.mono hle₁
      suffices h : Yields m ([] ++ freeConds ps) _ s₁ _ from h.imp (by simp) fun _ _ _ _ h => h
      refine Yields.bind (Yields.lift hs₁ (Build.join_runs hs₁.consistent hacc.held ha.held op))
        fun acc' s₂ hle₂ hs₂ hacc' => ?_
      have hacc' : s₂.builder.MeansCond acc' (fun ρ => op.apply (f ρ) (p.holds (ρ.override m)))
          (m.unbound (names ++ p.free)) :=
        hacc'.congr (fun ρ => by rw [hacc.holds, ha.holds]) (Model.append_subset_unbound hacc.free ha.free)
      refine (ih hps.2 hs₂ (fun q hq => (hheld.2 q hq).mono (hle₁.trans hle₂)) hacc').imp (fun _ => Iff.rfl)
        fun q c _ _ hq => hq.congr (fun ρ => ?_) ?_
      · cases op with
        | and => exact Bool.and_assoc _ _ _
        | or => exact Bool.or_assoc _ _ _
      · rw [freeConds, List.append_assoc]
        exact List.Subset.refl _

theorem evaluable_junction (i : Nat) (op : Connective) {args : List Cond} (hargs : ∀ p ∈ args, Evaluable m p) :
    Evaluable m (.junction i op args) := by
  intro s hs ht
  have hheld : ∀ p ∈ args, s.builder.Holds p := hs.consistent.children ht
  refine Yields.remember hs ht ?_
  refine Yields.bind (Yields.lift hs (Build.truth_runs hs.consistent op.unit []))
    fun start s₁ hle₁ hs₁ hstart => ?_
  have hstart : s₁.builder.MeansCond start (fun _ => op.unit) (m.unbound []) := hstart.1
  refine (evalConds_yields op hargs hs₁ (fun p hp => (hheld p hp).mono hle₁) hstart).imp (fun _ => Iff.rfl)
    fun q c _ _ hq => hq.congr (fun ρ => ?_) (List.Subset.refl _)
  rw [holds_junction]
  cases op with
  | and => exact Bool.true_and _
  | or => exact Bool.false_or _

theorem evaluable {k : Ty} (t : Term k) : Evaluable m t := by
  induction t using Term.induct with
  | symbol i name width => exact evaluable_symbol i name width
  | const i c =>
      intro s hs ht
      rw [evalM_of_isConst m rfl]
      exact .pure hs (fun _ h => absurd h List.not_mem_nil) ⟨⟨ht, rfl⟩, fun _ => rfl, List.nil_subset _⟩
  | ite i cond yes no hcond hyes hno => exact evaluable_ite i hcond hyes hno
  | unary i op arg harg => exact evaluable_unary i op harg
  | binary i op left right hleft hright => exact evaluable_binary i op hleft hright
  | nary i op args hargs => exact evaluable_nary i op hargs
  | truth i v =>
      intro s hs ht
      rw [evalM_of_isConst m rfl]
      exact .pure hs (fun _ h => absurd h List.not_mem_nil) ⟨ht, fun _ => rfl, List.nil_subset _⟩
  | not i arg harg => exact evaluable_not i harg
  | compare i op left right hleft hright => exact evaluable_compare i op hleft hright
  | junction i op args hargs => exact evaluable_junction i op hargs

end Term

/-! ### Values -/

/-- A held term without symbols is a constant. -/
theorem Builder.Consistent.free_ne_nil {b : Builder} (hb : b.Consistent) {k : Ty} {t : Term k} (ht : b.Holds t)
    (hconst : t.isConst = false) : t.free ≠ [] := by
  induction t using Term.induct with
  | symbol i name width => exact List.cons_ne_nil _ _
  | const i c => cases hconst
  | ite i cond yes no ih _ _ =>
      have hcond := ih (hb.children ht).1 (hb.proper ht).2
      simp [Term.free, hcond]
  | unary i op arg ih => exact ih (hb.children ht) (hb.proper ht)
  | binary i op left right ihl ihr =>
      rcases (hb.proper ht).2 with h | h
      · simp [Term.free, ihl (hb.children ht).1 h]
      · simp [Term.free, ihr (hb.children ht).2 h]
  | nary i op args ih =>
      obtain ⟨-, u, hu, h⟩ := hb.proper ht
      obtain ⟨s, hs⟩ := List.exists_mem_of_ne_nil _ (ih u hu (hb.children ht u hu) h)
      exact List.ne_nil_of_mem (Term.mem_freeWords.mpr ⟨u, hu, hs⟩)
  | truth i v => cases hconst
  | not i arg ih => exact ih (hb.children ht) (hb.proper ht)
  | compare i op left right ihl ihr =>
      rcases (hb.proper ht).2 with h | h
      · simp [Term.free, ihl (hb.children ht).1 h]
      · simp [Term.free, ihr (hb.children ht).2 h]
  | junction i op args ih =>
      obtain ⟨p, hp⟩ := List.exists_mem_of_ne_nil _ (hb.proper ht).1
      obtain ⟨s, hs⟩ := List.exists_mem_of_ne_nil _ (ih p hp (hb.children ht p hp) ((hb.proper ht).2 p hp))
      exact List.ne_nil_of_mem (Term.mem_freeConds.mpr ⟨p, hp, hs⟩)

/-- The model gives every symbol a word of its width. -/
def Model.Covers (m : Model) (names : List (String × Nat)) : Prop :=
  ∀ s ∈ names, ∃ c, m.find? s.1 = some c ∧ c.width = s.2

theorem Model.Covers.fits {m : Model} {names : List (String × Nat)} (h : m.Covers names) : m.Fits names := by
  intro s hs c hc
  obtain ⟨c', hc', hwidth⟩ := h s hs
  cases hc.symm.trans hc'
  exact hwidth

theorem Model.Covers.unbound_eq_nil {m : Model} {names : List (String × Nat)} (h : m.Covers names) :
    m.unbound names = [] := by
  rw [List.eq_nil_iff_forall_not_mem]
  intro s hs
  obtain ⟨hmem, hnone⟩ := Model.mem_unbound.mp hs
  obtain ⟨c, hc, -⟩ := h s hmem
  cases hnone.symm.trans hc

/-- What replaces a term under a model that covers its symbols is a constant. -/
theorem Builder.Replaces.isConst {b : Builder} (hb : b.Consistent) {m : Model} {k : Ty} {t u : Term k}
    (h : b.Replaces m t u) (hm : m.Covers t.free) : u.isConst = true := by
  have hfree : u.free = [] := List.subset_nil.mp (hm.unbound_eq_nil ▸ h.free)
  by_contra hconst
  exact hb.free_ne_nil h.held (Bool.not_eq_true _ ▸ hconst) hfree

theorem Builder.Replaces.truth?_eq {b : Builder} (hb : b.Consistent) {m : Model} {p q : Cond}
    (h : b.Replaces m p q) (hm : m.Covers p.free) (ρ : Valuation) : q.truth? = some (p.holds (ρ.override m)) := by
  rw [Term.truth?_of_isConst (h.isConst hb hm) ρ, MeansCond.holds h]

namespace Build

variable {m : Model} {b : Builder}

/-- Evaluation with a fresh memory. -/
theorem eval_spec (hb : b.Consistent) {k : Ty} {t : Term k} (ht : b.Holds t) (m : Model) :
    (eval m t b).2.Consistent ∧ b ≤ (eval m t b).2 ∧
      ((∃ u, (eval m t b).1 = .ok u ∧ m.Fits t.free ∧ (eval m t b).2.Replaces m t u) ∨
        ∃ e, (eval m t b).1 = .error e ∧ m.Misfit t.free e) := by
  have hs : EvalM.Sound m { builder := b } := EvalM.sound_fresh hb
  have hrun : ∀ {r : Except EvalError (Term k)} {s'}, t.evalM m { builder := b } = (r, s') →
      eval m t b = (r, s'.builder) := by
    intro r s' h
    change ((t.evalM m { builder := b }).1, (t.evalM m { builder := b }).2.builder) = _
    rw [h]
  rcases t.evaluable { builder := b } hs ht with ⟨u, s', h, hs', hle, hfits, hu⟩ | ⟨e, s', h, hs', hle, hmisfit⟩
  · rw [hrun h]
    exact ⟨hs'.consistent, hle, Or.inl ⟨u, rfl, hfits, hu⟩⟩
  · rw [hrun h]
    exact ⟨hs'.consistent, hle, Or.inr ⟨e, rfl, hmisfit⟩⟩

theorem eval_of_covers (hb : b.Consistent) {k : Ty} {t : Term k} (ht : b.Holds t) (hm : m.Covers t.free) :
    ∃ u, (eval m t b).1 = .ok u ∧ (eval m t b).2.Replaces m t u ∧ u.isConst = true := by
  obtain ⟨hc, -, ⟨u, hu, -, hmeans⟩ | ⟨e, -, hmisfit⟩⟩ := eval_spec hb ht m
  · exact ⟨u, hu, hmeans, hmeans.isConst hc hm⟩
  · exact absurd hm.fits hmisfit.not_fits

/-- A word has a value under a model that covers its symbols. -/
theorem evalWord_of_covers (hb : b.Consistent) {t : Term .word} {w : Nat} (ht : b.HoldsAt w t)
    (hm : m.Covers t.free) (ρ : Valuation) :
    ∃ c, (evalWord m t b).1 = .ok c ∧ c.width = w ∧ c.bits w = t.bits (ρ.override m) w := by
  obtain ⟨u, hu, hmeans, hconst⟩ := eval_of_covers hb ht.held hm
  have hmeans := hmeans.means ht.width
  cases hc : u.const? with
  | none =>
      rw [Term.const?_eq_none_iff, hconst] at hc
      cases hc
  | some c =>
      refine ⟨c, ?_, (Term.width_of_const? hc).trans hmeans.width, ?_⟩
      · rw [evalWord, bind_apply, hu]
        dsimp only
        rw [hc]
        rfl
      · rw [← Term.bits_of_const? hc ρ w, hmeans.bits]

/-- A condition has a truth value under a model that covers its symbols. -/
theorem evalBool_of_covers (hb : b.Consistent) {p : Cond} (hp : b.Holds p) (hm : m.Covers p.free)
    (ρ : Valuation) : (evalBool m p b).1 = .ok (p.holds (ρ.override m)) := by
  obtain ⟨hc, -, ⟨q, hq, -, hmeans⟩ | ⟨e, -, hmisfit⟩⟩ := eval_spec hb hp m
  · rw [evalBool, bind_apply, hq]
    dsimp only
    rw [hmeans.truth?_eq hc hm ρ]
    rfl
  · exact absurd hm.fits hmisfit.not_fits

end Build
end Pathwise
