import Pathwise.Proofs.Counterexamples
import Pathwise.Proofs.PairRuns
import Pathwise.Proofs.SlicedModels

/-! Divergences are confirmed. The last stage of a check asks for inputs that satisfy the path conditions of two
recorded runs and give their results different values. If the oracle's models can be relied on, both
implementations take the recorded paths again on the inputs that it comes up with, and their outcomes are the
values that the formula speaks about. So running both shows the difference, and the check never has to report
that it could not confirm one.

The lemmas follow the stages of a check and say of each how it leaves the session, what it reports, and what it knows
if it reports nothing. -/

namespace Pathwise

open Builder

variable {σ α β : Type} {good : σ → Prop} {right : Answer → Cond → Prop}

/-! ### Oracles that solve formulas -/

/-- The model satisfies the formula whatever inputs it is applied to. -/
def Answer.Satisfies (a : Answer) (p : Cond) : Prop :=
  ∀ m, a = .ok (some m) → ∀ inputs : InputMap, p.free ⊆ inputs.symbols →
    p.holds (inputs.applyModel m).valuation = true

/-- Nothing satisfies a formula that is refused. -/
def Answer.Refuses (a : Answer) (p : Cond) : Prop := a = .ok none → ∀ ρ, p.holds ρ = false

/-- In every good state the answers to formulas over integers are right, the oracle stays in a good state, and
does to the builder what building terms does. -/
def Oracle.Answers (o : Oracle σ) (good : σ → Prop) (right : Answer → Cond → Prop) : Prop :=
  ∀ (s : σ) (b : Builder) (p : Cond), good s → b.Consistent → b.Holds p → (∀ x ∈ p.free, x.2 = intWidth) →
    let out := o.ask (.solve p) s b
    right out.1.1 p ∧ good out.1.2 ∧ out.2.Consistent ∧ b ≤ out.2

theorem Oracle.Answers.imp {o : Oracle σ} {right' : Answer → Cond → Prop} (ho : o.Answers good right)
    (h : ∀ a p, right a p → right' a p) : o.Answers good right' := fun s b p hs hb hp hints =>
  (ho s b p hs hb hp hints).imp_left (h _ p)

/-! ### Sessions -/

namespace Engine

variable {act : Engine σ α} {next : α → Engine σ β} {s s' : Session σ} {stops stops' : Session σ → Prop}
  {mid : α → Session σ → Prop} {post : β → Session σ → Prop}

/-- A computation that ended so has failed and left a session that it may stop in, or has ended as it should. -/
def Ends (stops : Session σ → Prop) (post : α → Session σ → Prop) : Except CallError α × Session σ → Prop
  | (.error _, s) => stops s
  | (.ok a, s) => post a s

theorem Ends.stop {out : Except CallError α × Session σ} (h : Ends stops mid out)
    (hstops : ∀ s', stops s' → stops' s') : Ends stops' mid out := by
  rcases out with ⟨err | a, s'⟩
  · exact hstops s' h
  · exact h

theorem Ends.imp {mid' : α → Session σ → Prop} {out : Except CallError α × Session σ} (h : Ends stops mid out)
    (himp : ∀ a s', mid a s' → mid' a s') : Ends stops mid' out := by
  rcases out with ⟨err | a, s'⟩
  · exact h
  · exact himp a s' h

theorem Ends.bind (h : Ends stops mid (act s)) (hnext : ∀ a s', mid a s' → Ends stops post (next a s')) :
    Ends stops post ((act >>= next) s) := by
  rcases hact : act s with ⟨err | a, s'⟩
  · rw [hact] at h
    rw [bind_of_error hact]
    exact h
  · rw [hact] at h
    rw [bind_of_ok hact]
    exact hnext a s' h

end Engine

namespace Session

variable {s s' s'' : Session σ}

/-- Since the first session no divergence was found. -/
def Quiet (s s' : Session σ) : Prop :=
  ∃ events, s'.events = s.events ++ events ∧ Event.query .divergence .sat ∉ events

theorem Quiet.refl (s : Session σ) : s.Quiet s := ⟨[], (List.append_nil _).symm, List.not_mem_nil⟩

theorem Quiet.same (h : s.Quiet s') (hevents : s''.events = s'.events) : s.Quiet s'' := by
  obtain ⟨events, heq, hnot⟩ := h
  exact ⟨events, hevents.trans heq, hnot⟩

theorem Quiet.emit (h : s.Quiet s') {e : Event} (hevents : s''.events = s'.events ++ [e])
    (he : e ≠ .query .divergence .sat) : s.Quiet s'' := by
  obtain ⟨events, heq, hnot⟩ := h
  refine ⟨events ++ [e], ?_, ?_⟩
  · rw [hevents, heq, List.append_assoc]
  · simp [hnot, he.symm]

end Session

namespace Checker

variable {c : Checker} {r r' : Routine} {o : Oracle σ} {s s' s₀ : Session σ} {m : InputMap} {run : PairRun}
  {stops : Session σ → Prop}

/-- The session is one in which both implementations can be called. -/
structure Fit (c : Checker) (good : σ → Prop) (s : Session σ) : Prop where
  reference : s.world.Ready c.reference.path
  candidate : s.world.Ready c.candidate.path
  consistent : s.world.builder.Consistent
  oracle : good s.oracle

/-- Both runs are recorded in the builder. -/
structure Recorded (c : Checker) (r r' : Routine) (b : Builder) (run : PairRun) : Prop where
  reference : c.reference.Recorded r b run.inputs run.reference run.referencePath
  candidate : c.candidate.Recorded r' b run.inputs run.candidate run.candidatePath

theorem Recorded.mono {b b' : Builder} (hb : b.Consistent) (h : c.Recorded r r' b run) (hb' : b'.Consistent)
    (hle : b ≤ b') : c.Recorded r r' b' run :=
  ⟨h.reference.mono hb hb' hle, h.candidate.mono hb hb' hle⟩

theorem Recorded.deviation_runs {b : Builder} (hb : b.Consistent) (h : c.Recorded r r' b run) :
    Build.Runs run.deviation b fun f b' => b'.MeansCond f
      (fun ρ => run.referencePath.holds ρ != run.candidatePath.holds ρ) run.inputs.symbols :=
  Trace.deviation_runs hb h.reference.held h.candidate.held

theorem Recorded.divergence_runs {b : Builder} (hb : b.Consistent) (h : c.Recorded r r' b run) :
    Build.Runs run.divergence b fun f b' => b'.MeansCond f
      (fun ρ => run.reference.value.meaning ρ != run.candidate.value.meaning ρ &&
        (run.referencePath.holds ρ && run.candidatePath.holds ρ)) run.inputs.symbols :=
  Trace.divergence_runs hb (h.reference.value hb) (h.candidate.value hb) h.reference.held h.candidate.held

/-! ### Steps -/

/-- Formulas about inputs have integer symbols. -/
theorem ints_of_symbols {m : InputMap} {f : Cond} (h : f.free ⊆ m.symbols) : ∀ x ∈ f.free, x.2 = intWidth := by
  intro x hx
  obtain ⟨i, -, rfl⟩ := List.mem_map.mp (h hx)
  rfl

/-- A question about recorded runs keeps the session fit, and its answer is right. -/
theorem Asked.answers (ho : o.Answers good right) (hs : c.Fit good s) {kind : QueryKind} {formula : Build Cond}
    {g : Valuation → Bool} (hformula : Build.Runs formula s.world.builder fun f b => b.MeansCond f g m.symbols)
    {f : Cond} {a : Answer} (h : Asked o kind formula s f a s') :
    c.Fit good s' ∧ s.world.builder ≤ s'.world.builder ∧ s'.events = s.events ++ [.query kind (.ofAnswer a)] ∧
      right a f ∧ f.free ⊆ m.symbols ∧ ∀ ρ, f.holds ρ = g ρ := by
  obtain ⟨hbuild, hask⟩ := h
  cases hbuild
  have hmeans := hformula.post
  obtain ⟨hright, hgood, hconsistent, hle⟩ := ho s.oracle _ _ hs.oracle hformula.consistent hmeans.held
    (ints_of_symbols hmeans.free)
  cases hask
  exact ⟨⟨hs.reference.of_paths_eq rfl, hs.candidate.of_paths_eq rfl, hconsistent, hgood⟩,
    hformula.grows.trans hle, rfl, hright, hmeans.free, hmeans.holds⟩

/-- A run records its path condition, and leaves everything else as it was. -/
theorem runOne_ends {inv : Invocation} (hr : inv.Follows r) (hw : s.world.Ready inv.path)
    (hb : s.world.builder.Consistent) (m : InputMap) :
    Engine.Ends (fun s' => s'.events = s.events) (fun out s' =>
      s'.world.paths = s.world.paths ∧ s'.oracle = s.oracle ∧ s'.world.builder.Consistent ∧
        s.world.builder ≤ s'.world.builder ∧ (∃ e, s'.events = s.events ++ [.execution e]) ∧
        inv.Recorded r s'.world.builder m out.1 out.2) (runOne inv m s) := by
  have hrun := inv.runM_runs r hb m
  have hcall : Engine.call inv m s =
      ((inv.runM r m s.world.builder).1.bind fun e => (Invocation.resultOf inv.name e.1).map (·, e.2),
        { s with world := { s.world with builder := (inv.runM r m s.world.builder).2 } }) := by
    unfold Engine.call
    rw [Invocation.call_eq hr hw]
    rfl
  rcases hran : (inv.runM r m s.world.builder).1 with err | ⟨v, t⟩
  · rw [hran] at hcall
    rw [runOne, bind_of_error hcall]
    rfl
  · have hsettled := Invocation.settled_runM hb hran
    rw [hran] at hcall
    rcases hresult : Invocation.resultOf inv.name v with err | result
    · change Engine.call inv m s = ((Invocation.resultOf inv.name v).map (·, t), _) at hcall
      rw [hresult] at hcall
      rw [runOne, bind_of_error hcall]
      rfl
    · change Engine.call inv m s = ((Invocation.resultOf inv.name v).map (·, t), _) at hcall
      rw [hresult] at hcall
      have hformula := Trace.formula_runs hrun.consistent (hsettled.ends hrun.consistent).2.1
      rw [runOne, bind_of_ok hcall]
      refine ⟨rfl, rfl, hformula.consistent, hrun.grows.trans hformula.grows, ⟨_, rfl⟩, v, t, ?_, hresult,
        hformula.post⟩
      exact hsettled.mono hrun.consistent hformula.consistent hformula.grows

section Stages

variable (hr : c.reference.Follows r) (hr' : c.candidate.Follows r')
include hr hr'

theorem runBoth_ends (hs : c.Fit good s) (hquiet : s₀.Quiet s) {out : Except CallError PairRun × Session σ}
    (h : c.runBoth m s = out) : Engine.Ends s₀.Quiet (fun run s' => c.Fit good s' ∧ s₀.Quiet s' ∧ run.inputs = m ∧
      c.Recorded r r' s'.world.builder run) out := by
  subst h
  have hrun := runOne_ends hr hs.reference hs.consistent m
  refine Engine.Ends.bind (hrun.stop fun s' => hquiet.same) fun out s₁ hout => ?_
  obtain ⟨hpaths₁, horacle₁, hb₁, -, ⟨e₁, hevents₁⟩, hrec₁⟩ := hout
  have hquiet₁ := hquiet.emit hevents₁ nofun
  have hrun' := runOne_ends hr' (hs.candidate.of_paths_eq hpaths₁) hb₁ m
  refine Engine.Ends.bind (hrun'.stop fun s' => hquiet₁.same) fun out' s₂ hout' => ?_
  obtain ⟨hpaths₂, horacle₂, hb₂, hle, ⟨e₂, hevents₂⟩, hrec₂⟩ := hout'
  have hpaths := hpaths₂.trans hpaths₁
  have hgood : good s₂.oracle := by
    rw [horacle₂, horacle₁]
    exact hs.oracle
  exact ⟨⟨hs.reference.of_paths_eq hpaths, hs.candidate.of_paths_eq hpaths, hb₂, hgood⟩,
    hquiet₁.emit hevents₂ nofun, rfl, hrec₁.mono hb₁ hb₂ hle, hrec₂⟩

/-- On inputs that satisfy both path conditions, the implementations have the outcomes of the recorded results. -/
theorem Recorded.yields {b : Builder} (hb : b.Consistent) (h : c.Recorded r r' b run)
    (hshape : run.inputs.shape = m.shape) (href : run.referencePath.holds m.valuation = true)
    (hcand : run.candidatePath.holds m.valuation = true) :
    c.reference.Yields c.Callable m (run.reference.outcomeAt m.valuation) ∧
      c.candidate.Yields c.Callable m (run.candidate.outcomeAt m.valuation) := by
  constructor
  · intro w hw
    rw [Invocation.outcome_call hr hw.1, h.reference.native_eq hr hb hshape href]
  · intro w hw
    rw [Invocation.outcome_call hr' hw.2, h.candidate.native_eq hr' hb hshape hcand]

/-- There running both succeeds and shows these outcomes. -/
theorem runBoth_of_yields (hs : c.Fit good s) {y y' : String} (href : c.reference.Yields c.Callable m y)
    (hcand : c.candidate.Yields c.Callable m y') :
    ∃ run s', c.runBoth m s = (.ok run, s') ∧ c.Fit good s' ∧ run.inputs = m ∧ run.reference.outcome = y ∧
      run.candidate.outcome = y' := by
  have href' : c.reference.Deterministic c.Callable :=
    Invocation.deterministic_of_follows callable_build (fun _ hw => hw.1) hr
  have hcand' : c.candidate.Deterministic c.Callable :=
    Invocation.deterministic_of_follows callable_build (fun _ hw => hw.2) hr'
  obtain ⟨out, s₁, hrun, hs₁, hout⟩ := runOne_of_yields href' ⟨hs.reference, hs.candidate⟩ href
  obtain ⟨out', s₂, hrun', -, hout'⟩ := runOne_of_yields hcand' hs₁ hcand
  have hboth : c.runBoth m s = (.ok ⟨m, out.1, out'.1, out.2, out'.2⟩, s₂) :=
    (bind_of_ok hrun).trans ((bind_of_ok hrun').trans rfl)
  exact ⟨_, s₂, hboth, (runBoth_ends hr hr' hs (.refl s) hboth).1, rfl, hout, hout'⟩

end Stages

/-! ### Stages -/

/-- The last stage has nothing to report on the two runs. -/
def Undiverging (right : Answer → Cond → Prop) (run : PairRun) : Prop :=
  ∃ f : Cond, right (.ok none) f ∧ ∀ ρ, f.holds ρ =
    (run.reference.value.meaning ρ != run.candidate.value.meaning ρ &&
      (run.referencePath.holds ρ && run.candidatePath.holds ρ))

/-- The last two stages have nothing to report on the two runs: no inputs take one of the paths only, or such
inputs were run, without a difference, and panicked or left the last stage with nothing to report. -/
inductive Undeviating (c : Checker) (r r' : Routine) (good : σ → Prop) (right : Answer → Cond → Prop)
    (run : PairRun) : Prop where
  | refused (f : Cond) (refused : right (.ok none) f)
      (means : ∀ ρ, f.holds ρ = (run.referencePath.holds ρ != run.candidatePath.holds ρ))
  | rerun (s s' : Session σ) (again : PairRun) (fit : c.Fit good s)
      (ran : c.runBoth again.inputs s = (.ok again, s')) (consistent : s'.world.builder.Consistent)
      (recorded : c.Recorded r r' s'.world.builder again) (shape : again.inputs.shape = run.inputs.shape)
      (deviates : run.referencePath.holds again.inputs.valuation ≠ run.candidatePath.holds again.inputs.valuation)
      (agrees : again.differ = false)
      (rest : (again.reference.panicked || again.candidate.panicked) = true ∨ Undiverging right again)

/-- What some stages of a check come to: the session stays fit, nothing is reported that was not confirmed, and a
divergence that was found is reported as a difference. If nothing is reported there is a reason. -/
structure StageEnd (c : Checker) (good : σ → Prop) (s₀ : Session σ) (silent : Prop) (d : Discovery) (s : Session σ) :
    Prop where
  fit : c.Fit good s
  finding : ∀ f, d = .finding f → f.kind ≠ .possibleDivergence
  found : s₀.Quiet s ∨ ∃ x, d = .difference x ∧ x.stage = .divergence ∧ x.reference ≠ x.candidate
  silent : d = .nothing → silent

theorem StageEnd.imp {silent silent' : Prop} {d : Discovery} (h : c.StageEnd good s₀ silent d s)
    (himp : silent → silent') : c.StageEnd good s₀ silent' d s :=
  ⟨h.fit, h.finding, h.found, fun hd => himp (h.silent hd)⟩

theorem stageEnd_undecided {silent : Prop} (hs : c.Fit good s) (hquiet : s₀.Quiet s) (stage : Stage)
    (input : Assignments) (e : OracleError) : c.StageEnd good s₀ silent (.finding (undecided stage input e)) s := by
  refine ⟨hs, ?_, Or.inl hquiet, nofun⟩
  rintro _ ⟨⟩
  exact nofun

theorem StageEnd.quiet {silent : Prop} {d : Discovery} (h : c.StageEnd good s₀ silent d s)
    (hd : ∀ x, d ≠ .difference x) : s₀.Quiet s := by
  refine h.found.resolve_right ?_
  rintro ⟨x, rfl, -⟩
  exact hd x rfl

section Stages

variable (hr : c.reference.Follows r) (hr' : c.candidate.Follows r') (ho : o.Answers good right)
  (hright : ∀ a p, right a p → a.Satisfies p)
include hr hr' ho hright

/-- Inputs that the oracle comes up with in the last stage take the two paths again, with different results. -/
theorem Asked.shows (hs : c.Fit good s) (hrun : c.Recorded r r' s.world.builder run)
    (hreturned : (run.reference.panicked || run.candidate.panicked) = false) {f : Cond} {model : Model}
    (h : Asked o .divergence run.divergence s f (.ok (some model)) s') :
    ∃ again s'', c.runBoth (run.inputs.applyModel model) s' = (.ok again, s'') ∧ c.Fit good s'' ∧
      again.reference.outcome ≠ again.candidate.outcome := by
  obtain ⟨hs', hle, -, hmodel, hfree, hmeans⟩ := h.answers ho hs (hrun.divergence_runs hs.consistent)
  have hholds := hright _ f hmodel model rfl run.inputs hfree
  rw [hmeans, Bool.and_eq_true, Bool.and_eq_true, bne_iff_ne] at hholds
  obtain ⟨hdiffer, hrefPath, hcandPath⟩ := hholds
  obtain ⟨hyref, hycand⟩ := (hrun.mono hs.consistent hs'.consistent hle).yields hr hr' hs'.consistent
    (InputMap.shape_applyModel run.inputs model).symm hrefPath hcandPath
  obtain ⟨again, s'', hagain, hs'', -, houtref, houtcand⟩ := runBoth_of_yields hr hr' hs' hyref hycand
  refine ⟨again, s'', hagain, hs'', ?_⟩
  rw [Bool.or_eq_false_iff] at hreturned
  rw [houtref, houtcand, Ne, RunResult.outcomeAt_eq_iff hreturned.1 hreturned.2]
  exact hdiffer

theorem DivergenceStage.ends (hs : c.Fit good s) (hquiet : s₀.Quiet s) (hrun : c.Recorded r r' s.world.builder run)
    (hreturned : (run.reference.panicked || run.candidate.panicked) = false)
    {out : Except CallError Discovery × Session σ} (h : c.DivergenceStage o run s out) :
    Engine.Ends s₀.Quiet (c.StageEnd good s₀ (Undiverging right run)) out := by
  have hformula := hrun.divergence_runs hs.consistent
  cases h with
  | undecided hasked =>
      obtain ⟨hs', -, hevents, -⟩ := hasked.answers ho hs hformula
      exact stageEnd_undecided hs' (hquiet.emit hevents nofun) _ _ _
  | refused hasked =>
      obtain ⟨hs', -, hevents, hrefused, -, hmeans⟩ := hasked.answers ho hs hformula
      exact ⟨hs', nofun, Or.inl (hquiet.emit hevents nofun), fun _ => ⟨_, hrefused, hmeans⟩⟩
  | failed hasked hagain =>
      obtain ⟨again, s'', hran, -⟩ := hasked.shows hr hr' ho hright hs hrun hreturned
      cases hagain.symm.trans hran
  | confirmed hasked hagain hdiffer =>
      obtain ⟨again, s'', hran, hs'', hne⟩ := hasked.shows hr hr' ho hright hs hrun hreturned
      cases hagain.symm.trans hran
      exact ⟨hs'', nofun, Or.inr ⟨_, rfl, rfl, hne⟩, nofun⟩
  | unconfirmed hasked hagain hsame =>
      obtain ⟨again, s'', hran, -, hne⟩ := hasked.shows hr hr' ho hright hs hrun hreturned
      cases hagain.symm.trans hran
      exact absurd (decide_eq_true hne) (Bool.eq_false_iff.mp hsame)

/-- Inputs that the oracle comes up with in the middle stage take one of the two paths only. Running both on them is
recorded, and leaves it to what follows whether anything is reported. -/
theorem Asked.deviates (hs : c.Fit good s) (hquiet : s₀.Quiet s) (hrun : c.Recorded r r' s.world.builder run) {f : Cond}
    {model : Model} (h : Asked o .deviation run.deviation s f (.ok (some model)) s')
    {out : Except CallError PairRun × Session σ} (hagain : c.runBoth (run.inputs.applyModel model) s' = out) :
    Engine.Ends s₀.Quiet (fun again s'' => c.Fit good s'' ∧ s₀.Quiet s'' ∧ c.Recorded r r' s''.world.builder again ∧
      (again.differ = false →
        ((again.reference.panicked || again.candidate.panicked) = true ∨ Undiverging right again) →
        c.Undeviating r r' good right run)) out := by
  obtain ⟨hs', -, hevents, hmodel, hfree, hmeans⟩ := h.answers ho hs (hrun.deviation_runs hs.consistent)
  have hholds := hright _ f hmodel model rfl run.inputs hfree
  rw [hmeans, bne_iff_ne] at hholds
  rcases out with ⟨err | again, s''⟩
  · exact runBoth_ends hr hr' hs' (hquiet.emit hevents nofun) hagain
  · obtain ⟨hs'', hquiet'', hinputs, hrec⟩ := runBoth_ends hr hr' hs' (hquiet.emit hevents nofun) hagain
    have hshape : again.inputs.shape = run.inputs.shape := by
      rw [hinputs, InputMap.shape_applyModel]
    rw [← hinputs] at hagain hholds
    exact ⟨hs'', hquiet'', hrec, .rerun s' s'' again hs' hagain hs''.consistent hrec hshape hholds⟩

theorem DeviationStage.ends (hs : c.Fit good s) (hquiet : s₀.Quiet s) {input : Assignments}
    (hrun : c.Recorded r r' s.world.builder run) {out : Except CallError Discovery × Session σ}
    (h : c.DeviationStage o input run s out) :
    Engine.Ends s₀.Quiet (c.StageEnd good s₀ (c.Undeviating r r' good right run)) out := by
  have hformula := hrun.deviation_runs hs.consistent
  cases h with
  | undecided hasked =>
      obtain ⟨hs', -, hevents, -⟩ := hasked.answers ho hs hformula
      exact stageEnd_undecided hs' (hquiet.emit hevents nofun) _ _ _
  | refused hasked =>
      obtain ⟨hs', -, hevents, hrefused, -, hmeans⟩ := hasked.answers ho hs hformula
      exact ⟨hs', nofun, Or.inl (hquiet.emit hevents nofun), fun _ => .refused _ hrefused hmeans⟩
  | failed hasked hagain => exact hasked.deviates hr hr' ho hright hs hquiet hrun hagain
  | confirmed hasked hagain hdiffer =>
      obtain ⟨hs'', hquiet'', -⟩ := hasked.deviates hr hr' ho hright hs hquiet hrun hagain
      exact ⟨hs'', nofun, Or.inl hquiet'', nofun⟩
  | panicked hasked hagain hsame hpanicked =>
      obtain ⟨hs'', hquiet'', -, hsilent⟩ := hasked.deviates hr hr' ho hright hs hquiet hrun hagain
      exact ⟨hs'', nofun, Or.inl hquiet'', fun _ => hsilent hsame (Or.inl hpanicked)⟩
  | divergence hasked hagain hsame hreturned hstage =>
      obtain ⟨hs'', hquiet'', hrec, hsilent⟩ := hasked.deviates hr hr' ho hright hs hquiet hrun hagain
      exact (hstage.ends hr hr' ho hright hs'' hquiet'' hrec hreturned).imp fun d s₁ hd =>
        hd.imp fun hundiverging => hsilent hsame (Or.inr hundiverging)

theorem Stages.ends (hs : c.Fit good s) (hquiet : s₀.Quiet s) {input : Assignments}
    {out : Except CallError Discovery × Session σ} (h : c.Stages o input s out) :
    Engine.Ends s₀.Quiet (c.StageEnd good s₀
      (∃ run s', c.runBoth input.inputMap s = (.ok run, s') ∧ s'.world.builder.Consistent ∧
        c.Recorded r r' s'.world.builder run ∧ run.differ = false ∧ c.Undeviating r r' good right run)) out := by
  cases h with
  | failed hrun => exact runBoth_ends hr hr' hs hquiet hrun
  | different hrun hdiffer =>
      obtain ⟨hs', hquiet', -⟩ := runBoth_ends hr hr' hs hquiet hrun
      exact ⟨hs', nofun, Or.inl hquiet', nofun⟩
  | deviation hrun hsame hstage =>
      obtain ⟨hs', hquiet', -, hrec⟩ := runBoth_ends hr hr' hs hquiet hrun
      refine (hstage.ends hr hr' ho hright hs' hquiet' hrec).imp fun d s₁ hd => hd.imp fun hsilent => ?_
      exact ⟨_, _, hrun, hs'.consistent, hrec, hsame, hsilent⟩

end Stages

/-! ### Reports -/

/-- None of the findings is a divergence that was not confirmed. -/
def Settled (findings : List Finding) : Prop := ∀ f ∈ findings, f.kind ≠ .possibleDivergence

theorem Settled.append {findings : List Finding} (hf : Settled findings) {silent : Prop} {f : Finding}
    (h : c.StageEnd good s₀ silent (.finding f) s) : Settled (findings ++ [f]) :=
  List.forall_mem_append.mpr ⟨hf, List.forall_mem_singleton.mpr (h.finding f rfl)⟩

/-- What a check reports: no divergence that was not confirmed, and one that was found as a counterexample. -/
structure Confirms (s₀ : Session σ) (fin : CheckEnd) (s : Session σ) : Prop where
  findings : Settled fin.report.findings
  verdict : fin.report.verdict ≠ .possiblyDivergent
  found : s₀.Quiet s ∨ ∃ x, fin.report.counterexample = some x ∧ x.stage = .divergence ∧ x.reference ≠ x.candidate

theorem confirms_report {found : Option Counterexample} {findings : List Finding} (hfindings : Settled findings)
    (hfound : s₀.Quiet s ∨ ∃ x, found = some x ∧ x.stage = .divergence ∧ x.reference ≠ x.candidate)
    (checked : Nat) (cancelled : Bool) : Confirms s₀ ⟨c.report found findings checked, cancelled⟩ s := by
  refine ⟨hfindings, ?_, hfound⟩
  cases found with
  | some x => exact nofun
  | none =>
      have hnone : .possibleDivergence ∉ findings.map (·.kind) := by
        intro hmem
        obtain ⟨f, hf, hkind⟩ := List.mem_map.mp hmem
        exact hfindings f hf hkind
      change Verdict.decide none findings ≠ _
      rw [Verdict.decide_none, if_neg hnone]
      split_ifs <;> exact nofun

theorem Course.ends (hr : c.reference.Follows r) (hr' : c.candidate.Follows r')
    (ho : o.Answers good Answer.Satisfies) {inputs : List Assignments} {findings : List Finding} {checked : Nat}
    {out : Except CallError CheckEnd × Session σ} (h : c.Course o inputs findings checked s out) :
    Settled findings → c.Fit good s → s₀.Quiet s → Engine.Ends s₀.Quiet (Confirms s₀) out := by
  induction h with
  | done | cancelled => exact fun hf _ hquiet => confirms_report hf (Or.inl hquiet) _ _
  | failed hone => exact fun _ hs hquiet => hone.ends hr hr' ho (fun _ _ h => h) hs hquiet
  | found hone =>
      intro hf hs hquiet
      have hend := hone.ends hr hr' ho (fun _ _ h => h) hs hquiet
      refine confirms_report hf (hend.found.imp_right ?_) _ _
      rintro ⟨_, ⟨⟩, hx⟩
      exact ⟨_, rfl, hx⟩
  | nothing hone _ ih =>
      intro hf hs hquiet
      have hend := hone.ends hr hr' ho (fun _ _ h => h) hs hquiet
      exact ih hf hend.fit (hend.quiet nofun)
  | stopped hone _ =>
      intro hf hs hquiet
      have hend := hone.ends hr hr' ho (fun _ _ h => h) hs hquiet
      exact confirms_report (hf.append hend) (Or.inl (hend.quiet nofun)) _ _
  | noted hone _ _ ih =>
      intro hf hs hquiet
      have hend := hone.ends hr hr' ho (fun _ _ h => h) hs hquiet
      exact ih (hf.append hend) hend.fit (hend.quiet nofun)

end Checker

/-- With an oracle whose models satisfy what they were asked for, a check never reports a divergence that it could
not confirm: once the oracle has found one, the check ends with a counterexample from that stage. -/
theorem divergence_always_confirmed {c : Checker} {r r' : Routine} (hr : c.reference.Follows r)
    (hr' : c.candidate.Follows r') (hprior : ∀ f ∈ c.prior, f.kind ≠ .possibleDivergence) {o : Oracle σ}
    (ho : o.Answers good Answer.Satisfies) {s : Session σ} (hs : c.Fit good s) (inputs : List Assignments) :
    (∀ fin s', c.check o inputs s = (.ok fin, s') →
      (∀ f ∈ fin.report.findings, f.kind ≠ .possibleDivergence) ∧ fin.report.verdict ≠ .possiblyDivergent) ∧
    (s.Quiet (c.check o inputs s).2 ∨ ∃ fin s' x, c.check o inputs s = (.ok fin, s') ∧
      fin.report.counterexample = some x ∧ x.stage = .divergence ∧ x.reference ≠ x.candidate) := by
  have hconfirms : ∀ fin s', c.check o inputs s = (.ok fin, s') → Checker.Confirms s fin s' := by
    intro fin s' hcheck
    obtain ⟨s₁, hcourse, rfl⟩ := Checker.exists_course_of_check hcheck
    obtain ⟨hfindings, hverdict, hfound⟩ := hcourse.ends hr hr' ho hprior hs (.refl s)
    exact ⟨hfindings, hverdict, hfound.imp_left fun hquiet => hquiet.emit rfl nofun⟩
  refine ⟨fun fin s' heq => ?_, ?_⟩
  · obtain ⟨hfindings, hverdict, -⟩ := hconfirms fin s' heq
    exact ⟨hfindings, hverdict⟩
  · rcases hout : c.check o inputs s with ⟨err | fin, s'⟩
    · exact Or.inl ((Checker.course_of_check_error hout).ends hr hr' ho hprior hs (.refl s))
    · refine (hconfirms fin s' hout).found.imp_right ?_
      rintro ⟨x, hx⟩
      exact ⟨fin, s', x, rfl, hx⟩

/-! ### A divergence that is found -/

/-- Refuses the formula that is constantly false, looks for a model among samples, and leaves everything else
open. -/
def Oracle.ofSamples (values : List Int64) : Oracle Unit where
  ask
    | .solve p, s => do
      let found ← Grid.firstHolding p (Grid.models values p.symbols)
      return (if p.truth? = some false then .ok none else found.elim (.error .unknown) (.ok ∘ some), s)
    | .counterexample .., s => return (.error .unknown, s)

theorem Oracle.ofSamples_answers (values : List Int64) :
    (Oracle.ofSamples values).Answers (fun _ => True) fun a p => a.Satisfies p ∧ a.Refuses p := by
  intro s b p _ hb hp hints
  have hbinds : ∀ m ∈ Grid.models values p.symbols, m.Binds p.free := fun m hm =>
    Grid.binds_of_mem_models hb hp hints hm
  obtain ⟨hc, hle, hfound⟩ := Grid.firstHolding_spec hb hp fun m hm => (hbinds m hm).covers
  refine ⟨?_, trivial, hc, hle⟩
  change (fun a : Answer => a.Satisfies p ∧ a.Refuses p) (if p.truth? = some false then .ok none else
    (Grid.firstHolding p (Grid.models values p.symbols) b).1.elim (.error .unknown) (.ok ∘ some))
  by_cases hfalse : p.truth? = some false
  · rw [if_pos hfalse]
    exact ⟨nofun, fun _ => Term.holds_of_truth? hfalse⟩
  · rw [if_neg hfalse]
    rcases hfound with ⟨m, hm, hfound, hholds⟩ | ⟨hnone, -⟩
    · rw [hfound]
      refine ⟨?_, nofun⟩
      rintro _ ⟨⟩ inputs hinputs
      have hwidth : ∀ name c, m.find? name = some c → c.width = intWidth := fun name c h =>
        hints _ ((hbinds m hm).only name c h)
      rw [Term.holds_congr hb hp ((inputs.applyModel_agree hwidth).mono hinputs)]
      exact hholds _
    · rw [hnone]
      exact ⟨nofun, nofun⟩

/-- The square agrees with the identity at 0, where one of the two branches, and at 1, where it does not. On that
path they are told apart by 2. -/
theorem divergence_always_confirmed_of_square :
    let same : Routine := .param "x" (.operation (.const 0) (.operation (.compare .eq 0 1)
      (.branch 0 (.ret 1) (.ret 0))))
    let square : Routine := .param "x" (.operation (.binary .mul 0 0) (.ret 1))
    let c : Checker := { reference := ⟨"same", ["x"], fun args => same.run args {}, 0, 0⟩,
                         candidate := ⟨"square", ["x"], fun args => square.run args {}, 1, 0⟩ }
    let o := Oracle.ofSamples [0, 1, 2]
    let s : Session Unit := { world := { paths := #[{}, {}] }, oracle := () }
    c.Fit (fun _ => True) s ∧ o.Answers (fun _ => True) Answer.Satisfies ∧
      ∃ fin s' x, c.check o [[⟨"x", 0⟩]] s = (.ok fin, s') ∧ fin.report.verdict ≠ .possiblyDivergent ∧
        fin.report.counterexample = some x ∧ x.stage = .divergence ∧ x.reference ≠ x.candidate := by
  intro same square c o s
  have hs : c.Fit (fun _ => True) s := ⟨⟨by decide, rfl⟩, ⟨by decide, rfl⟩, consistent_empty, trivial⟩
  have ho : o.Answers (fun _ => True) Answer.Satisfies := (Oracle.ofSamples_answers _).imp fun _ _ h => h.1
  have hasked : ((c.check o [[⟨"x", 0⟩]] s).2.events.any fun e => e matches .query .divergence .sat) = true := by
    decide +kernel
  have hsame : c.reference.Follows same := fun _ => rfl
  have hsquare : c.candidate.Follows square := fun _ => rfl
  obtain ⟨hverdict, hquiet | ⟨fin, s', x, hcheck, hx⟩⟩ := divergence_always_confirmed hsame hsquare
    (fun f hf => absurd hf List.not_mem_nil) ho hs [[⟨"x", 0⟩]]
  · obtain ⟨events, hevents, hnot⟩ := hquiet
    rw [hevents] at hasked
    obtain ⟨e, he, hdivergence⟩ := List.any_eq_true.mp hasked
    have heq : e = .query .divergence .sat := by
      split at hdivergence
      · rfl
      · cases hdivergence
    exact absurd (heq ▸ he) hnot
  · exact ⟨hs, ho, fin, s', x, hcheck, (hverdict fin s' hcheck).2, hx⟩

end Pathwise
