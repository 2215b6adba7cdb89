import Pathwise.Proofs.Calls

/-! Two runs of one routine. Inputs of one shape differ in the values of symbolic inputs only. What a run
builds depends on terms, and on values only where there is no term; so two runs on inputs of one shape do the
same until a decision on one condition goes two ways. Their traces are the same, and then they end alike, or
they part at a decision that one took and the other took the other way (`Invocation.Settled.coherent`).

Runs are compared within one builder. A run is settled in a builder if it adds no term to it: then it ends
in the same way in every later builder (`Invocation.Settled.mono`), and after a run the builder is one in
which that run is settled (`Invocation.settled_runM`). -/

namespace Pathwise

open Builder

/-! ### Arguments of two runs -/

variable {ρ σ : Valuation} {names : List (String × Nat)} {p : Nat} {b c : Builder}

/-- The arguments have the same names and terms, and the same values where there is no term. -/
def Args.Alike (args args' : Args) : Prop :=
  List.Forall₂ (fun a a' => a.1 = a'.1 ∧ Tracked.Alike (k := .word) a.2 a'.2) args args'

theorem Args.Alike.lookup {args args' : Args} (h : Args.Alike args args') (name : String) :
    lookupValue name args = none ∧ lookupValue name args' = none ∨
      ∃ x y, lookupValue name args = some x ∧ lookupValue name args' = some y ∧
        Tracked.Alike (k := .word) x y := by
  unfold lookupValue
  induction h with
  | nil => exact Or.inl ⟨rfl, rfl⟩
  | @cons a a' _ _ ha _ ih =>
      rw [List.find?_cons, List.find?_cons, ← ha.1]
      cases a.1 == name with
      | true => exact Or.inr ⟨a.2, a'.2, rfl, rfl, ha.2⟩
      | false => exact ih

/-- An input bound again, perhaps to another value, has the same term. -/
theorem Input.track_again (hb : b.Consistent) (hc : c.Consistent) {i j : Input} (h : i.shape = j.shape)
    (hle : (i.track p b).2 ≤ c) :
    Tracked.Alike (k := .word) (i.track p b).1 (j.track p c).1 ∧ (j.track p c).2.SameTable c := by
  obtain ⟨hname, hsym, hvalue⟩ := Input.shape_eq_iff.mp h
  unfold track at hle ⊢
  rw [← hsym, ← hname]
  cases hi : i.symbolic with
  | true =>
      rw [hi, if_pos rfl] at hle
      obtain ⟨hterm, htable⟩ := (Build.symbol_runs hb i.name intWidth).again c hc hle
      rw [if_pos rfl, if_pos rfl]
      exact ⟨⟨congrArg (fun t : Term .word => some (Origin.mk t p)) hterm.symm, nofun⟩, htable⟩
  | false => exact ⟨⟨rfl, fun _ => hvalue hi⟩, .refl c⟩

/-- Binding again, on inputs of one shape, fails for the same parameter or gives arguments alike. -/
theorem InputMap.bindM_again {m m' : InputMap} (h : m.shape = m'.shape) (params : List String) :
    ∀ {b c : Builder} {args args' : Args}, b.Consistent → c.Consistent → Args.Alike args args' →
      Args.Sound b m.valuation m.symbols p args → (m.bindM p params args b).2 ≤ c →
      ((∃ e, (m.bindM p params args b).1 = .error e ∧ (m'.bindM p params args' c).1 = .error e) ∨
        ∃ as as', (m.bindM p params args b).1 = .ok as ∧ (m'.bindM p params args' c).1 = .ok as' ∧
          Args.Alike as as') ∧ (m'.bindM p params args' c).2.SameTable c := by
  induction params with
  | nil => exact fun hb hc halike _ _ => ⟨Or.inr ⟨_, _, rfl, rfl, halike⟩, .refl _⟩
  | cons name params ih =>
      intro b c args args' hb hc halike hargs hle
      rw [bindM] at hle
      rw [bindM, bindM]
      rcases find?_of_shape h name with ⟨hi, hj⟩ | ⟨i, j, hi, hj, hij⟩
      · rw [hi, hj]
        exact ⟨Or.inl ⟨_, rfl, rfl⟩, .refl c⟩
      · rw [hi] at hle
        rw [hi, hj]
        dsimp only at hle ⊢
        rw [Build.bind_apply] at hle
        rw [Build.bind_apply, Build.bind_apply]
        have hrun := Input.track_runs (p := p) hb (valuation_of_find? hi)
        have hargs' : Args.Sound (i.track p b).2 m.valuation m.symbols p (args ++ [(name, (i.track p b).1)]) :=
          List.forall_mem_append.mpr ⟨hargs.mono hrun.grows, List.forall_mem_singleton.mpr hrun.post⟩
        have hgrows := (m.bindM_runs params _ hrun.consistent hargs').grows
        obtain ⟨hx, htable⟩ := Input.track_again hb hc hij (hgrows.trans hle)
        have hnext : Args.Alike (args ++ [(name, (i.track p b).1)]) (args' ++ [(name, (j.track p c).1)]) :=
          List.rel_append halike (.cons ⟨rfl, hx⟩ .nil)
        obtain ⟨hres, htable'⟩ := ih hrun.consistent (hc.of_sameTable htable) hnext hargs'
          (hle.trans htable.symm.le)
        exact ⟨hres, htable'.trans htable⟩

/-! ### Traces of two runs -/

/-- The runs ended with values alike, or for one reason. -/
def EndAlike : Except Stop SymInt → Except Stop SymInt → Prop
  | .ok x, .ok y => Tracked.Alike (k := .word) x y
  | .error s, .error s' => s = s'
  | _, _ => False

/-- The runs recorded the same decisions and ended alike, or they went apart at a decision. -/
inductive Coherent : Except Stop SymInt × Trace → Except Stop SymInt × Trace → Prop where
  | same {e e' : Except Stop SymInt} (t : Trace) (ends : EndAlike e e') : Coherent (e, t) (e', t)
  | apart {e e' : Except Stop SymInt} (before : Trace) (d : Predicate) (rest rest' : Trace) :
      Coherent (e, before ++ d :: rest) (e', before ++ d.flip :: rest')

theorem Coherent.append {e e' : Except Stop SymInt} {t t' : Trace} (before : Trace)
    (h : Coherent (e, t) (e', t')) : Coherent (e, before ++ t) (e', before ++ t') := by
  cases h with
  | same t ends => exact .same _ ends
  | apart mid d rest rest' =>
      rw [← List.append_assoc, ← List.append_assoc]
      exact .apart (before ++ mid) d rest rest'

/-- A branch in a second run records what the first one did, or the opposite decision. -/
theorem SymBool.record_again (hb : b.Consistent) {x y : SymBool} (hx : x.Sound b ρ names p)
    (h : Tracked.Alike (k := .bool) x y) (hc : c.Consistent) (hle : (x.record b).2 ≤ c) :
    (y.record c).2.SameTable c ∧
      (y.value = x.value ∧ (y.record c).1 = (x.record b).1 ∨
        y.value = !x.value ∧ ∃ d, (x.record b).1 = [d] ∧ (y.record c).1 = [d.flip]) := by
  unfold record at hle ⊢
  rw [← h.1]
  cases ho : x.origin with
  | none => exact ⟨.refl c, Or.inl ⟨(h.2 ho).symm, rfl⟩⟩
  | some o =>
      rw [ho] at hle
      obtain ⟨hterm, htable⟩ := (Build.boolNot_runs hb (hx o ho).2.2.held).again c hc hle
      refine ⟨htable, ?_⟩
      change _ ∧ [(⟨o.term, y.value, (Build.boolNot o.term c).1⟩ : Predicate)] =
        [⟨o.term, x.value, (Build.boolNot o.term b).1⟩] ∨ _
      rw [hterm]
      by_cases hvalue : y.value = x.value
      · exact Or.inl ⟨hvalue, by rw [hvalue]⟩
      · refine Or.inr ⟨Bool.eq_not.mpr hvalue, _, rfl, ?_⟩
        change [(⟨o.term, y.value, (Build.boolNot o.term c).1⟩ : Predicate)] = _
        rw [hterm, Bool.eq_not.mpr hvalue]
        rfl

/-- Two runs of a routine are coherent, the second one in a builder later than the first one's end. -/
theorem Routine.go_again {args args' : Args} (r : Routine) (hargs' : Args.Alike args args') :
    ∀ {b c : Builder} {regs regs' : Registers}, b.Consistent → c.Consistent → regs.Alike regs' →
      Args.Sound b ρ names p args → regs.Sound b ρ names p → Args.Sound c σ names p args' →
      regs'.Sound c σ names p → (r.go args regs b).2 ≤ c →
      Coherent (r.go args regs b).1 (r.go args' regs' c).1 := by
  induction r with
  | ret x => exact fun _ _ hregs _ _ _ _ _ => .same [] (hregs.int x)
  | panic text => exact fun _ _ _ _ _ _ _ _ => .same [] rfl
  | param name rest ih =>
      intro b c regs regs' hb hc hregs hs hr hs' hr' hle
      rw [go] at hle
      rw [go, go]
      rcases hargs'.lookup name with ⟨hx, hy⟩ | ⟨x, y, hx, hy, hxy⟩
      · rw [hx, hy]
        exact .same [] rfl
      · rw [hx] at hle
        rw [hx, hy]
        exact ih hb hc (hregs.push (k := .word) hxy) hs (hr.push (hs.lookup hx)) hs' (hr'.push (hs'.lookup hy)) hle
  | operation o rest ih =>
      intro b c regs regs' hb hc hregs hs hr hs' hr' hle
      have hrun := o.run_runs hb hr
      have hsound := (hr.mono hrun.grows).push hrun.post
      have hgrows := (rest.go_runs hrun.consistent (hs.mono hrun.grows) hsound).grows
      obtain ⟨halike, htable⟩ := o.run_again hb hr hc hr' hregs (hgrows.trans hle)
      have hrun' := o.run_runs hc hr'
      exact ih hrun.consistent hrun'.consistent (hregs.push halike) (hs.mono hrun.grows) hsound
        (hs'.mono hrun'.grows) ((hr'.mono hrun'.grows).push hrun'.post) (hle.trans htable.symm.le)
  | branch g yes no ihyes ihno =>
      intro b c regs regs' hb hc hregs hs hr hs' hr' hle
      have hrec := SymBool.record_runs hb (hr.bool g)
      have hrec' := SymBool.record_runs hc (hr'.bool g)
      have hs₁ := hs.mono hrec.grows
      have hr₁ := hr.mono hrec.grows
      have hs₂ := hs'.mono hrec'.grows
      have hr₂ := hr'.mono hrec'.grows
      rw [go_branch] at hle
      rw [go_branch, go_branch]
      have hgrows := ((if (regs.bool g).value then yes else no).go_runs hrec.consistent hs₁ hr₁).grows
      obtain ⟨htable, ⟨hvalue, hsame⟩ | ⟨-, d, hd, hd'⟩⟩ :=
        SymBool.record_again hb (hr.bool g) (hregs.bool g) hc (hgrows.trans hle)
      · have hle' := hle.trans htable.symm.le
        rw [hsame, hvalue]
        refine Coherent.append _ ?_
        split_ifs at hle' ⊢
        · exact ihyes hrec.consistent hrec'.consistent hregs hs₁ hr₁ hs₂ hr₂ hle'
        · exact ihno hrec.consistent hrec'.consistent hregs hs₁ hr₁ hs₂ hr₂ hle'
      · rw [hd, hd']
        exact .apart [] d _ _

/-! ### Settled runs -/

namespace Invocation

/-- Runs that ended alike have the same panic, or values alike. -/
theorem resultOf_alike {name : String} {v v' : Except Stop SymInt} (h : EndAlike v v') {result : RunResult}
    (hv : resultOf name v = .ok result) : ∃ result', resultOf name v' = .ok result' ∧
      result'.panic = result.panic ∧ Tracked.Alike (k := .word) result.value result'.value := by
  rcases v with stop | x <;> rcases v' with stop' | y
  · cases (h : stop = stop')
    exact ⟨result, hv, rfl, .refl _⟩
  · exact h.elim
  · exact h.elim
  · cases hv
    exact ⟨_, rfl, rfl, h⟩

theorem resultOf_of_ends {name : String} {v v' : Except Stop SymInt} (h : EndAlike v v') {result : RunResult}
    (hv : resultOf name v = .ok result) : ∃ result', resultOf name v' = .ok result' := by
  obtain ⟨result', hresult, -⟩ := resultOf_alike h hv
  exact ⟨result', hresult⟩

variable {inv : Invocation} {r : Routine} {m m' : InputMap} {e e' : Except Stop SymInt × Trace}

/-- In the builder the run on the inputs ends in this way, and adds no term. -/
structure Settled (inv : Invocation) (r : Routine) (b : Builder) (m : InputMap)
    (e : Except Stop SymInt × Trace) : Prop where
  ran : (inv.runM r m b).1 = .ok e
  table : (inv.runM r m b).2.SameTable b

theorem Settled.mono (hb : b.Consistent) (h : inv.Settled r b m e) (hc : c.Consistent) (hle : b ≤ c) :
    inv.Settled r c m e := by
  obtain ⟨hval, htable⟩ := (inv.runM_runs r hb m).again c hc (h.table.le.trans hle)
  exact ⟨hval.trans h.ran, htable⟩

/-- After a run the builder is one in which it is settled. -/
theorem settled_runM (hb : b.Consistent) (h : (inv.runM r m b).1 = .ok e) :
    inv.Settled r (inv.runM r m b).2 m e := by
  have hrun := inv.runM_runs r hb m
  obtain ⟨hval, htable⟩ := hrun.again _ hrun.consistent le_rfl
  exact ⟨hval.trans h, htable⟩

theorem Settled.ends (hb : b.Consistent) (h : inv.Settled r b m e) :
    Routine.Ends m.valuation m.symbols inv.path e b := by
  obtain ⟨hvalue, hformed, hholds⟩ := (inv.runM_runs r hb m).post.ends e h.ran
  exact ⟨fun x hx => (hvalue x hx).mono h.table.le, hformed.mono h.table.le, hholds⟩

/-- Settled runs on inputs of one shape are coherent. -/
theorem Settled.coherent (hb : b.Consistent) (h : inv.Settled r b m e) (h' : inv.Settled r b m' e')
    (hshape : m.shape = m'.shape) : Coherent e e' := by
  obtain ⟨hran, htable⟩ := h
  obtain ⟨hran', -⟩ := h'
  unfold runM at hran htable hran'
  rw [Build.bind_apply] at hran htable hran'
  have hbound := m.bindM_runs (p := inv.path) inv.params [] hb nofun
  have hbound' := m'.bindM_runs (p := inv.path) inv.params [] hb nofun
  rcases hargs : (m.bindM inv.path inv.params [] b).1 with s | args
  · rw [hargs] at hran
    cases hran
  · rcases hargs' : (m'.bindM inv.path inv.params [] b).1 with s | args'
    · rw [hargs'] at hran'
      cases hran'
    · rw [hargs] at hran htable
      rw [hargs'] at hran'
      cases hran
      cases hran'
      have hs := (hbound.post.1 args hargs).1
      have hs' := (hbound'.post.1 args' hargs').1
      have hle : (m.bindM inv.path inv.params [] b).2 ≤ b :=
        (r.go_runs hbound.consistent hs Registers.forall_empty).grows.trans htable.le
      obtain ⟨⟨s, herror, -⟩ | ⟨as, as', hok, hok', halike⟩, htable'⟩ :=
        InputMap.bindM_again hshape inv.params hb hb .nil nofun hle
      · rw [hargs] at herror
        cases herror
      · rw [hargs] at hok
        rw [hargs'] at hok'
        cases hok
        cases hok'
        rw [← InputMap.symbols_eq_of_shape hshape] at hs'
        exact r.go_again halike hbound.consistent hbound'.consistent (Registers.alike_refl {}) hs
          Registers.forall_empty hs' Registers.forall_empty (htable.le.trans htable'.symm.le)

end Invocation
end Pathwise
