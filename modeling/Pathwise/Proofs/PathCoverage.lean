import Pathwise.Proofs.Rounds

/-! Exact path coverage. With an oracle that can be relied on, an exploration never takes another path than it
meant to and never takes a path twice; and once it is complete it has taken every path that inputs can take.
This holds at every stage, so it does not matter when an exploration is stopped.

A round keeps an exploration on course, and hence every stage is. For a run on any inputs, follow its trace: a
run of the exploration that leaves it does so at a decision whose other branch can be taken, so that branch was
taken by another run, which leaves the trace later if at all. -/

namespace Pathwise

open Builder PredicateKey

variable {σ : Type}

namespace Explorer

variable {e : Explorer} {r : Routine} {good : σ → Prop} {b : Builder} {x : Exploration} {waiting : List Nat}
  {runs : List (InputMap × Trace)} {done : Trace → Prop} {o : Oracle σ} {log : List (Assignments × Trace)}
  {s : Session σ} {m : InputMap} {v : Except Stop SymInt} {t : Trace}

/-! ### From round to round -/

/-- The executions that are reported for the runs. -/
def reports (e : Explorer) (runs : List (InputMap × Trace)) : List (Assignments × Trace) :=
  if e.observed then runs.map fun u => (u.1.assignments, u.2) else []

theorem reports_append (e : Explorer) (runs : List (InputMap × Trace)) (m : InputMap) (t : Trace) :
    e.reports (runs ++ [(m, t)]) = e.reports runs ++ if e.observed then [(m.assignments, t)] else [] := by
  unfold reports
  split_ifs
  · rw [List.map_append]
    rfl
  · rfl

variable {g g' : Stage σ} {i : Nat} {n : TreeNode} {a : Answer} {out : Option InputMap} {s' : Session σ}

/-- What is known at a stage: the target can be called, the runs were reported, and they make progress. -/
structure OnCourse (e : Explorer) (r : Routine) (good : σ → Prop) (log : List (Assignments × Trace))
    (g : Stage σ) : Prop where
  fit : g.session.Fit e good (log ++ e.reports g.runs)
  progress : e.Progress r g.session.world.builder g.state g.state.waiting g.runs g.state.Done

theorem OnCourse.solves (ho : o.Valid good) (hg : e.OnCourse r good log g) (h : Solves o g i n a out x s') :
    s'.Fit e good (log ++ e.reports g.runs) ∧
      (out = none → e.Progress r s'.world.builder x x.waiting g.runs x.Done) ∧
      ∀ m, out = some m → e.Turns x g.runs n m ∧
        e.Progress r s'.world.builder x x.waiting g.runs fun q => x.Done q ∨ q = n.path := by
  obtain ⟨hwaiting, hnode, hquery, hopen, -, hsolve⟩ := h
  have hprogress := hg.progress
  rw [hwaiting] at hprogress
  obtain ⟨hs', hnone, hsome⟩ := (solve_ensures ho hg.fit hprogress hnode hquery hopen).2 _ s' hsolve
  refine ⟨hs', fun hout => { hnone hout with }, fun m hout => ?_⟩
  obtain ⟨hturns, hprogress'⟩ := hsome m hout
  exact ⟨{ hturns with }, { hprogress' with }⟩

/-- A node without a decision or already processed is not pending. -/
theorem Progress.isPending_eq_false (h : e.Progress r b x waiting runs done)
    (hskip : ∀ n, x.tree.nodes[i]? = some n → n.predicate? = none ∨ n.processed = true) :
    Exploration.isPending x.tree i = false := by
  rw [Exploration.isPending]
  cases hi : x.tree.nodes[i]? with
  | none => rfl
  | some n =>
      have hnil := (h.tree.origin n (Array.mem_of_getElem? hi)).1
      rcases hskip n hi with hnone | hprocessed
      · exact absurd (List.getLast?_eq_none_iff.mp hnone) hnil
      · rw [Option.any_some, hprocessed]
        rfl

/-- A round keeps an exploration on course. -/
theorem OnCourse.round (hr : e.target.Follows r) (ho : o.Valid good) (hg : e.OnCourse r good log g)
    (h : e.Round o g g') : e.OnCourse r good log g' := by
  cases h with
  | skipped hcap hwaiting hskip =>
      have hprogress := hg.progress
      rw [hwaiting] at hprogress
      exact ⟨hg.fit, { hprogress.skip (hprogress.isPending_eq_false hskip) with }⟩
  | refused hcap hsolves =>
      obtain ⟨hs', hnone, -⟩ := hg.solves ho hsolves
      constructor
      · rw [Stage.runs_attempt, Option.map_none, Option.toList_none, List.append_nil]
        exact hs'
      · rw [Stage.runs_attempt, Option.map_none, Option.toList_none, List.append_nil]
        exact hnone rfl
  | executed hcap hsolves hcall hexecute =>
      obtain ⟨hs', -, hsome⟩ := hg.solves ho hsolves
      obtain ⟨hturns, hprogress⟩ := hsome _ rfl
      obtain ⟨rfl, hs'', hle, v, hv, hresult⟩ := execute_settles hr hs' hturns.shape hcall hexecute
      rw [List.append_assoc, ← reports_append] at hs''
      constructor
      · rw [Stage.runs_attempt]
        exact hs''
      · rw [Stage.runs_attempt]
        exact hprogress.turn hs'.consistent hturns hs''.consistent hle hv hresult

/-- Every stage is on course. -/
theorem Reaches.onCourse (hr : e.target.Follows r) (ho : o.Valid good) (hs : s.Fit e good log)
    (h : e.Reaches o s g) : e.OnCourse r good log g := by
  induction h with
  | seeded hcall hexecute =>
      obtain ⟨rfl, hs', hle, v, hv, hresult⟩ := execute_settles hr hs rfl hcall hexecute
      refine ⟨?_, (progress_empty e r s.world.builder fun _ => False).merge hs.consistent hs'.consistent hle rfl hv
        hresult nofun rfl fun q hq => hq.elim⟩
      exact hs'
  | round h hround ih => exact ih.round hr ho hround

/-! ### Coverage -/

/-- A node is known by its keys. -/
theorem Progress.path_eq (hb : b.Consistent) (h : e.Progress r b x waiting runs done) {names : List (String × Nat)}
    {q : Trace} (hq : q.Formed b names) (hhas : x.tree.Has q.keys) :
    ∃ n ∈ x.tree.nodes, n.path = q ∧ ∃ u ∈ runs, q <+: u.2 := by
  obtain ⟨n, hn, hkeys⟩ := hhas
  obtain ⟨-, u, hu, -, -, hbegins⟩ := h.tree.origin n hn
  have hformed : Trace.Formed b u.1.symbols n.path := fun d hd => (h.ends hb hu).1 d (hbegins.subset hd)
  have heq := Trace.eq_of_keys hb hformed hq hkeys
  exact ⟨n, hn, heq, u, hu, heq ▸ hbegins⟩

/-- With nothing pending and nothing undecided, the other branch of every decision was taken or cannot be. -/
theorem Progress.tried (hb : b.Consistent) (h : e.Progress r b x waiting runs x.Done)
    (hpending : ∀ i, Exploration.isPending x.tree i = false) (hunknown : x.stats.unknown = 0)
    {u : InputMap × Trace} (hu : u ∈ runs) {before rest : Trace} {d : Predicate}
    (hsplit : u.2 = before ++ d :: rest) {ρ : Valuation} (hbefore : before.HoldsFor ρ) (hd : d.flip.HoldsFor ρ) :
    ∃ u' ∈ runs, before ++ [d.flip] <+: u'.2 := by
  have hbegins : before ++ [d] <+: u.2 := ⟨rest, by rw [hsplit, List.append_assoc]; rfl⟩
  have hformed : Trace.Formed b u.1.symbols (before ++ [d]) := fun d' hd' =>
    (h.ends hb hu).1 d' (hbegins.subset hd')
  have hnil : before ++ [d] ≠ [] := List.append_ne_nil_of_right_ne_nil _ (List.cons_ne_nil _ _)
  obtain ⟨n, hn, hpath, -⟩ := h.path_eq hb hformed (h.tree.holds _ u.1 ⟨u, hu, rfl, hnil, hbegins⟩)
  obtain ⟨i, hi⟩ := Array.mem_iff_getElem?.mp hn
  have hprocessed : n.processed = true := by
    have := hpending i
    rw [Exploration.isPending, hi, Option.any_some, Bool.not_eq_false'] at this
    exact this
  rcases h.tree.reason n hn hprocessed with (hinfeasible | hunknown') | hhas
  · exact absurd hd (hinfeasible before d hpath ρ hbefore)
  · omega
  · have hflip : Trace.Formed b u.1.symbols (before ++ [d.flip]) := by
      unfold Trace.Formed at hformed ⊢
      rw [List.forall_mem_append, List.forall_mem_singleton] at hformed ⊢
      exact ⟨hformed.1, hformed.2.flip⟩
    rw [TreeNode.opposite_keys hpath] at hhas
    obtain ⟨-, -, -, hrun⟩ := h.path_eq hb hflip hhas
    exact hrun

/-- A list that begins two lists ends before they part. -/
theorem prefix_of_apart {α : Type} {q before rest rest' : List α} {a a' : α} (h : q <+: before ++ a :: rest)
    (h' : q <+: before ++ a' :: rest') (hne : a ≠ a') : q <+: before := by
  induction before generalizing q with
  | nil =>
      cases q with
      | nil => exact List.nil_prefix
      | cons x q =>
          have hx := (List.cons_prefix_cons.mp h).1
          have hx' := (List.cons_prefix_cons.mp h').1
          exact absurd (hx.symm.trans hx') hne
  | cons y before ih =>
      cases q with
      | nil => exact List.nil_prefix
      | cons x q =>
          obtain ⟨rfl, hq⟩ := List.cons_prefix_cons.mp h
          exact List.cons_prefix_cons.mpr ⟨rfl, ih hq (List.cons_prefix_cons.mp h').2⟩

theorem Progress.coherent (hb : b.Consistent) (h : e.Progress r b x waiting runs done)
    (hm : m.shape = e.initialInputs.shape) (hv : e.target.Settled r b m (v, t)) {u : InputMap × Trace}
    (hu : u ∈ runs) : ∃ vu, Coherent (vu, u.2) (v, t) ∧
      ∃ result, Invocation.resultOf e.target.name vu = .ok result := by
  obtain ⟨vu, hvu, hresult⟩ := h.settled u hu
  exact ⟨vu, hvu.coherent hb hv ((h.shape u hu).trans hm.symm), hresult⟩

/-- The runs follow any trace further and further: where one leaves it, there is one that does not. -/
theorem Progress.follows_take (hb : b.Consistent) (h : e.Progress r b x waiting runs x.Done) (hruns : runs ≠ [])
    (hpending : ∀ i, Exploration.isPending x.tree i = false) (hunknown : x.stats.unknown = 0)
    (hm : m.shape = e.initialInputs.shape) (hv : e.target.Settled r b m (v, t)) (k : Nat) (hk : k ≤ t.length) :
    ∃ u ∈ runs, t.take k <+: u.2 := by
  have hholds : t.HoldsFor m.valuation := (hv.ends hb).2.2
  induction k with
  | zero =>
      obtain ⟨u, hu⟩ := List.exists_mem_of_ne_nil runs hruns
      exact ⟨u, hu, List.nil_prefix⟩
  | succ k ih =>
      obtain ⟨⟨mu, tu⟩, hu, hbegins⟩ := ih (Nat.le_of_succ_le hk)
      obtain ⟨vu, hcoh, -⟩ := h.coherent hb hm hv hu
      cases hcoh with
      | same _ _ => exact ⟨_, hu, List.take_prefix _ _⟩
      | apart before d rest rest' =>
          have hbefore := prefix_of_apart hbegins ( List.take_prefix k _) d.flip_ne.symm
          have hle : k ≤ before.length := by
            have := hbefore.length_le
            rwa [List.length_take, Nat.min_eq_left (Nat.le_of_succ_le hk)] at this
          rcases Nat.lt_or_eq_of_le hle with hlt | rfl
          · refine ⟨_, hu, ?_⟩
            rw [List.take_append_of_le_length hlt]
            exact ( List.take_prefix _ _).trans (List.prefix_append _ _)
          · obtain ⟨u', hu', hbegins'⟩ := h.tried hb hpending hunknown hu rfl
              (fun d' hd' => hholds d' (List.mem_append_left _ hd'))
              (hholds d.flip (List.mem_append_right _ List.mem_cons_self))
            refine ⟨u', hu', ?_⟩
            rwa [List.take_length_add_append]

/-- With nothing pending and nothing undecided, every run is like one of the runs. -/
theorem Progress.covers (hb : b.Consistent) (h : e.Progress r b x waiting runs x.Done) (hruns : runs ≠ [])
    (hpending : ∀ i, Exploration.isPending x.tree i = false) (hunknown : x.stats.unknown = 0)
    (hm : m.shape = e.initialInputs.shape) (hv : e.target.Settled r b m (v, t)) :
    ∃ u ∈ runs, u.2 = t ∧ ∃ result, Invocation.resultOf e.target.name v = .ok result := by
  obtain ⟨⟨mu, tu⟩, hu, hbegins⟩ := h.follows_take hb hruns hpending hunknown hm hv t.length le_rfl
  rw [List.take_length] at hbegins
  obtain ⟨vu, hcoh, result, hresult⟩ := h.coherent hb hm hv hu
  cases hcoh with
  | same _ ends => exact ⟨_, hu, rfl, Invocation.resultOf_of_ends ends hresult⟩
  | apart before d rest rest' =>
      have hlength := (prefix_of_apart hbegins (List.prefix_refl _) d.flip_ne.symm).length_le
      rw [List.length_append, List.length_cons] at hlength
      omega

theorem Progress.pending_eq_false (h : e.Progress r b x x.waiting runs done) (hpending : x.pending = 0) (i : Nat) :
    Exploration.isPending x.tree i = false := by
  rw [Exploration.pending, List.countP_eq_zero] at hpending
  rw [Bool.eq_false_iff]
  exact fun hi => hpending i (h.pending i hi) hi

/-- A result covers paths exactly, given the session before the exploration and the stage that it tells of: no
run left the path it was meant for, no two runs took one path, and if the result is complete, there is a run on
the path of every assignment to the parameters that are not fixed. -/
structure Covered (e : Explorer) (s : Session σ) (g : Stage σ) (result : ExplorationResult) : Prop where
  divergences : result.stats.divergences = 0
  inputs : result.inputs = g.runs.map (·.1.assignments)
  recorded : e.observed = true → g.session.recorded = s.recorded ++ g.runs.map fun u => (u.1.assignments, u.2)
  ran : ∀ u ∈ g.runs, u.1.shape = e.initialInputs.shape ∧ ∃ a, (e.target.call u.1 g.session.world).1 = .ok (a, u.2)
  different : g.runs.Pairwise fun u u' => u.2.keys ≠ u'.2.keys
  complete : result.complete = true → ∀ m : InputMap, m.shape = e.initialInputs.shape →
    ∃ u ∈ g.runs, ∃ a, (e.target.call m g.session.world).1 = .ok (a, u.2)

theorem OnCourse.covered (hr : e.target.Follows r) (h : e.OnCourse r good s.recorded g) (cancelled : Bool) :
    e.Covered s g (e.finish g.state cancelled).result where
  divergences := h.progress.divergences
  inputs := h.progress.inputs
  recorded hobserved := by rw [h.fit.recorded, reports, if_pos hobserved]
  ran u hu := by
    obtain ⟨v, hv, result, hresult⟩ := h.progress.settled u hu
    exact ⟨h.progress.shape u hu, result, Invocation.call_of_runM hr h.fit.ready hv.ran hresult⟩
  different := h.progress.different
  complete hcomplete m hm := by
    obtain ⟨hpending, hunknown⟩ : g.state.pending = 0 ∧ g.state.stats.unknown = 0 := of_decide_eq_true hcomplete
    have hb := h.fit.consistent
    obtain ⟨v, t, hrun⟩ := exists_run (r := r) hb hm
    have hran := e.target.runM_runs r hb m
    obtain ⟨u, hu, rfl, result, hresult⟩ := (h.progress.mono hb hran.consistent hran.grows).covers hran.consistent
      (List.cons_ne_nil _ _) (h.progress.pending_eq_false hpending) hunknown hm (Invocation.settled_runM hb hrun)
    exact ⟨u, hu, result, Invocation.call_of_runM hr h.fit.ready hrun hresult⟩

/-- Only a target that asks for something that is no parameter makes an exploration fail. -/
theorem Breaks.fails {err : CallError} (hr : e.target.Follows r) (ho : o.Valid good) (hs : s.Fit e good log)
    (h : e.Breaks o s err) : e.Fails r err := by
  cases h with
  | seed hcall => exact (call_ensures hr hs rfl).1 err _ hcall
  | round hg hsolves hcall =>
      obtain ⟨hs', -, hsome⟩ := (hg.onCourse hr ho hs).solves ho hsolves
      exact (call_ensures hr hs' (hsome _ rfl).1.shape).1 err _ hcall

end Explorer

/-- Exploration covers paths exactly, wherever it is stopped: at the end of an exploration that returns, and at
every stage that an exploration reaches. It fails only if the target asks for something that is no parameter. -/
theorem exact_path_coverage (e : Explorer) (r : Routine) (o : Oracle σ) (good : σ → Prop) (s : Session σ)
    (hr : e.target.Follows r) (ho : o.Valid good) (hgood : good s.oracle) (hready : s.world.Ready e.target.path)
    (hb : s.world.builder.Consistent) :
    (∀ err s', e.explore o s = (.error err, s') →
      ∃ name ∈ r.asks, name ∉ e.target.params ∧ err = .unknownParameter name) ∧
    (∀ fin s', e.explore o s = (.ok fin, s') → ∃ g, e.Reaches o s g ∧ g.session = s' ∧ e.Covered s g fin.result) ∧
    ∀ g, e.Reaches o s g → ∀ cancelled, e.Covered s g (e.finish g.state cancelled).result := by
  have hs : s.Fit e good s.recorded := ⟨hready, hb, hgood, rfl⟩
  have hcovered : ∀ g, e.Reaches o s g → ∀ cancelled, e.Covered s g (e.finish g.state cancelled).result :=
    fun g hg => (hg.onCourse hr ho hs).covered hr
  obtain ⟨hbreaks, hends⟩ := e.explore_ends o s
  refine ⟨fun err s' heq => (hbreaks err s' heq).fails hr ho hs, fun fin s' heq => ?_, hcovered⟩
  obtain ⟨g, hg, hsession, cancelled, rfl, -⟩ := hends fin s' heq
  exact ⟨g, hg, hsession, hcovered g hg cancelled⟩

/-! ### An exploration that is complete -/

/-- The symbol that the condition says to be negative. -/
def Term.negative? : Cond → Option String
  | .compare _ .slt (.symbol _ name 64) (.const _ c) => if c = .zero 64 then some name else none
  | _ => none

theorem Term.holds_of_negative? {q : Cond} {name : String} (h : q.negative? = some name) :
    (name, 64) ∈ q.free ∧ ∀ ρ, q.holds ρ = (ρ name 64).slt 0 := by
  unfold negative? at h
  split at h
  · split_ifs at h with hc
    cases h
    subst hc
    exact ⟨List.mem_append_left _ (List.mem_singleton_self _), fun ρ => rfl⟩
  · cases h

/-- Decides whether one symbol is negative, knows what was asserted before, and leaves everything else open. -/
def Query.signAnswer (name : String) : Query → Answer
  | .counterexample asserts query =>
    if asserts.any (·.key = query.key) then .ok none
    else if asserts.isEmpty ∧ query.cond.negative? = some name then
      .ok (some ⟨[(name, .ofInt64 (if query.taken then 0 else -1))]⟩)
    else .error .unknown
  | .solve _ => .error .unknown

def Oracle.ofSign (name : String) : Oracle Unit where
  ask q s := pure (q.signAnswer name, s)

theorem Oracle.ofSign_valid (name : String) : (Oracle.ofSign name).Valid fun _ => True := by
  intro s b names asserts query _ hb hasserts hquery
  refine ⟨?_, trivial, hb, le_rfl⟩
  change Answer.Valid (Query.signAnswer name (.counterexample asserts query)) asserts query
  rw [Query.signAnswer]
  by_cases hkey : asserts.any (·.key = query.key) = true
  · rw [if_pos hkey]
    obtain ⟨d, hd, hkey⟩ := List.any_eq_true.mp hkey
    have heq := (hasserts d hd).eq_of_key hb hquery (of_decide_eq_true hkey)
    exact ⟨fun _ ρ hρ => heq ▸ (hρ d hd).not_flip, nofun⟩
  · rw [if_neg hkey]
    by_cases hsign : asserts.isEmpty = true ∧ query.cond.negative? = some name
    · rw [if_pos hsign]
      obtain ⟨hempty, hsign⟩ := hsign
      obtain ⟨hfree, hholds⟩ := Term.holds_of_negative? hsign
      rw [List.isEmpty_iff.mp hempty]
      refine ⟨nofun, ?_⟩
      rintro m ⟨⟩ inputs hinputs -
      refine ⟨nofun, ?_⟩
      have hmem : (name, intWidth) ∈ inputs.symbols := hinputs query List.mem_cons_self hfree
      have hfind : ∀ w, Model.find? ⟨[(name, w)]⟩ name = some w := fun w => by simp [Model.find?]
      have hvalue := InputMap.valuation_applyModel hmem (hfind (.ofInt64 (if query.taken then 0 else -1)))
      change query.cond.holds _ = !query.taken
      rw [hholds]
      change BitVec.slt (InputMap.valuation _ name intWidth) 0 = _
      rw [hvalue]
      cases query.taken <;> decide
    · rw [if_neg hsign]
      exact ⟨nofun, nofun⟩

/-- A target that asks twice whether its argument is negative: two of its four paths can be taken, and both
are. -/
theorem exact_path_coverage_of_sign :
    let twice : Routine := .param "x" (.operation (.const 0) (.operation (.compare .lt 0 1)
      (.branch 0 (.branch 0 (.panic "negative") (.ret 1)) (.branch 0 (.ret 1) (.ret 0)))))
    let e : Explorer := { target := ⟨"twice", ["x"], fun args => twice.run args {}, 0, 0⟩ }
    let s : Session Unit := { world := { paths := #[{}] }, oracle := () }
    e.target.Follows twice ∧ (Oracle.ofSign "x").Valid (fun _ => True) ∧ s.world.Ready e.target.path ∧
      s.world.builder.Consistent ∧
      ∃ fin g, e.explore (Oracle.ofSign "x") s = (.ok fin, g.session) ∧ e.Reaches (Oracle.ofSign "x") s g ∧
        fin.result.complete = true ∧ fin.result.inputs = [[⟨"x", 0⟩], [⟨"x", -1⟩]] ∧ e.Covered s g fin.result ∧
        ∀ v : Int64, ∃ u ∈ g.runs, ∃ a, (e.target.call ⟨[⟨"x", v, true⟩]⟩ g.session.world).1 = .ok (a, u.2) := by
  intro twice e s
  have hfollows : e.target.Follows twice := fun _ => rfl
  have hready : s.world.Ready e.target.path := ⟨by decide, rfl⟩
  obtain ⟨-, hok, -⟩ := exact_path_coverage e twice (Oracle.ofSign "x") (fun _ => True) s hfollows
    (Oracle.ofSign_valid "x") trivial hready consistent_empty
  have hcomplete : (e.explore (Oracle.ofSign "x") s).1.toOption.any (·.result.complete) = true := by
    decide +kernel
  have hinputs : (e.explore (Oracle.ofSign "x") s).1.toOption.map (·.result.inputs) =
      some [[⟨"x", 0⟩], [⟨"x", -1⟩]] := by
    decide +kernel
  rcases hexplore : e.explore (Oracle.ofSign "x") s with ⟨err | fin, s'⟩
  · rw [hexplore] at hcomplete
    cases hcomplete
  · rw [hexplore] at hcomplete hinputs
    obtain ⟨g, hg, rfl, hcovered⟩ := hok fin s' hexplore
    exact ⟨hfollows, Oracle.ofSign_valid "x", hready, consistent_empty, fin, g, rfl, hg, hcomplete,
      Option.some.inj hinputs, hcovered, fun v => hcovered.complete hcomplete _ rfl⟩

end Pathwise
