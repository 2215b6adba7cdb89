import Pathwise.Proofs.Checking
import Pathwise.Proofs.Outcomes

/-! Counterexamples can be replayed. Whatever the oracle says, and whatever it does to the builder, a check
reports a counterexample only after it has run both implementations on its input, and calls them not equivalent
exactly if it reports one. Where the outcome of an implementation is a function of its inputs, running both
again on the reported input shows the same two outcomes. The reported input is the list of a map that was made
from a list, perhaps by applying models, and such a map is what its list is read as. -/

namespace Pathwise

variable {σ : Type} {fit : World → Prop}

/-! ### Deterministic implementations -/

/-- In the worlds of a class the outcome of a call is a function of its inputs. Neither calls leave the class nor
forming the conditions of their paths. -/
structure Invocation.Deterministic (inv : Invocation) (fit : World → Prop) : Prop where
  outcome : ∀ (m : InputMap) (w w' : World), fit w → fit w' →
    (inv.call m w).1.map (·.1.outcome) = (inv.call m w').1.map (·.1.outcome)
  stays : ∀ (m : InputMap) (w : World), fit w → fit (inv.call m w).2
  formula : ∀ {m : InputMap} {w w' : World} {result : RunResult} {t : Trace}, fit w →
    inv.call m w = (.ok (result, t), w') → fit (w'.build t.formula).2

/-- The two implementations are deterministic in a class of worlds, which is not left when the oracle is asked about
runs of both. -/
structure Checker.Deterministic (c : Checker) (o : Oracle σ) (fit : World → Prop) : Prop where
  reference : c.reference.Deterministic fit
  candidate : c.candidate.Deterministic fit
  deviation : ∀ {m : InputMap} {run : PairRun} {s s' s'' : Session σ} {f : Cond} {a : Answer}, fit s.world →
    c.runBoth m s = (.ok run, s') → Asked o .deviation run.deviation s' f a s'' → fit s''.world
  divergence : ∀ {m : InputMap} {run : PairRun} {s s' s'' : Session σ} {f : Cond} {a : Answer}, fit s.world →
    c.runBoth m s = (.ok run, s') → Asked o .divergence run.divergence s' f a s'' → fit s''.world

/-- In a class that building terms does not leave, the condition of a path may be formed. -/
theorem Invocation.deterministic_of_build {inv : Invocation}
    (hbuild : ∀ (w : World) (b : Builder), fit w → fit { w with builder := b })
    (houtcome : ∀ (m : InputMap) (w w' : World), fit w → fit w' →
      (inv.call m w).1.map (·.1.outcome) = (inv.call m w').1.map (·.1.outcome))
    (hcall : ∀ (m : InputMap) (w : World), fit w → fit (inv.call m w).2) : inv.Deterministic fit where
  outcome := houtcome
  stays := hcall
  formula {m w w' result t} hw heq := by
    have hw' := hcall m w hw
    rw [heq] at hw'
    exact hbuild w' _ hw'

theorem Invocation.deterministic_of_follows {inv : Invocation}
    (hbuild : ∀ (w : World) (b : Builder), fit w → fit { w with builder := b })
    (hready : ∀ w, fit w → w.Ready inv.path) {r : Routine} (hr : inv.Follows r) : inv.Deterministic fit := by
  refine deterministic_of_build hbuild (fun m w w' hw hw' => ?_) fun m w hw => ?_
  · rw [outcome_call hr (hready w hw), outcome_call hr (hready w' hw')]
  · rw [call_eq hr (hready w hw)]
    exact hbuild w _ hw

/-- In every world of the class the invocation has the outcome. -/
def Invocation.Yields (inv : Invocation) (fit : World → Prop) (m : InputMap) (y : String) : Prop :=
  ∀ w, fit w → (inv.call m w).1.map (·.1.outcome) = .ok y

/-! ### Verdicts -/

namespace Verdict

/-- A possible divergence comes first among the findings, then an undecided query. -/
theorem ofFindings_eq (v : Verdict) (kinds : List FindingKind) :
    ofFindings v kinds = if .possibleDivergence ∈ kinds then .possiblyDivergent
      else if .inconclusive ∈ kinds then .inconclusive else v := by
  induction kinds generalizing v with
  | nil => rfl
  | cons kind kinds ih =>
      cases kind with
      | possibleDivergence => simp [ofFindings]
      | inconclusive => simp [ofFindings, ih]
      | other name => simp [ofFindings, ih]

theorem decide_none (findings : List Finding) :
    decide none findings = if .possibleDivergence ∈ findings.map (·.kind) then .possiblyDivergent
      else if .inconclusive ∈ findings.map (·.kind) then .inconclusive else .equivalent :=
  ofFindings_eq _ _

theorem decide_eq_notEquivalent_iff (found : Option Counterexample) (findings : List Finding) :
    decide found findings = .notEquivalent ↔ found ≠ none := by
  cases found with
  | none =>
      rw [decide_none]
      split_ifs <;> exact ⟨nofun, fun h => absurd rfl h⟩
  | some x => exact ⟨fun _ => nofun, fun _ => rfl⟩

end Verdict

namespace Checker

variable {c : Checker} {o : Oracle σ} {s : Session σ} {m : InputMap}

/-! ### Runs -/

theorem runOne_eq {inv : Invocation} {result : RunResult} {t : Trace} {w : World}
    (h : inv.call m s.world = (.ok (result, t), w)) :
    runOne inv m s = (.ok (result, (w.build t.formula).1),
      { s with
        world := (w.build t.formula).2
        events := s.events ++ [.execution ⟨inv.name, m.assignments, result, t, (w.build t.formula).1⟩] }) := by
  have hcall : Engine.call inv m s = (.ok (result, t), { s with world := w }) := by
    unfold Engine.call
    rw [h]
  exact (bind_of_ok hcall).trans rfl

theorem runOne_of_error {inv : Invocation} {err : CallError} {w : World} (h : inv.call m s.world = (.error err, w)) :
    runOne inv m s = (.error err, { s with world := w }) := by
  have hcall : Engine.call inv m s = (.error err, { s with world := w }) := by
    unfold Engine.call
    rw [h]
  exact bind_of_error hcall

theorem runOne_ensures {inv : Invocation} (hinv : inv.Deterministic fit) (hs : fit s.world) (m : InputMap) :
    Engine.Ensures (runOne inv m) s (fun _ => True) fun out s' =>
      fit s'.world ∧ inv.Yields fit m out.1.outcome := by
  rcases hcall : inv.call m s.world with ⟨err | ⟨result, t⟩, w⟩
  · exact Engine.ensures_of_error (runOne_of_error hcall) trivial
  · refine Engine.ensures_of_eq (runOne_eq hcall) ⟨hinv.formula hs hcall, fun w' hw' => ?_⟩
    rw [hinv.outcome m w' s.world hw' hs, hcall]
    rfl

/-- Where the outcome is known, the run succeeds and has it. -/
theorem runOne_of_yields {inv : Invocation} (hinv : inv.Deterministic fit) (hs : fit s.world) {y : String}
    (h : inv.Yields fit m y) : ∃ out s', runOne inv m s = (.ok out, s') ∧ fit s'.world ∧ out.1.outcome = y := by
  have hy := h s.world hs
  rcases hcall : inv.call m s.world with ⟨err | ⟨result, t⟩, w⟩
  · rw [hcall] at hy
    cases hy
  · rw [hcall] at hy
    have hrun := runOne_eq hcall
    exact ⟨_, _, hrun, ((runOne_ensures hinv hs m).2 _ _ hrun).1, Except.ok.inj hy⟩

theorem runBoth_ensures (href : c.reference.Deterministic fit) (hcand : c.candidate.Deterministic fit)
    (hs : fit s.world) (m : InputMap) :
    Engine.Ensures (c.runBoth m) s (fun _ => True) fun run s' => fit s'.world ∧ run.inputs = m ∧
      c.reference.Yields fit m run.reference.outcome ∧ c.candidate.Yields fit m run.candidate.outcome := by
  refine Engine.Ensures.bind (runOne_ensures href hs m) fun out s' hout => ?_
  refine Engine.Ensures.bind (runOne_ensures hcand hout.1 m) fun out' s'' hout' => ?_
  exact Engine.ensures_of_eq rfl ⟨hout'.1, rfl, hout.2, hout'.2⟩

/-! ### Classes that building does not leave -/

section

variable (hbuild : ∀ (w : World) (b : Builder), fit w → fit { w with builder := b })
include hbuild

theorem Asked.stays {kind : QueryKind} {formula : Build Cond} {f : Cond} {a : Answer} {s' : Session σ}
    (hs : fit s.world) (h : Asked o kind formula s f a s') : fit s'.world := by
  obtain ⟨hbuilt, hask⟩ := h
  obtain ⟨a', s'', hask', -, hworld⟩ := Engine.ask_eq o kind (.solve f) _
  cases hask.symm.trans hask'
  rw [hworld]
  cases hbuilt
  exact hbuild _ _ (hbuild _ _ hs)

/-- There any oracle may be asked. -/
theorem deterministic_of_build (href : c.reference.Deterministic fit) (hcand : c.candidate.Deterministic fit)
    (o : Oracle σ) : c.Deterministic o fit where
  reference := href
  candidate := hcand
  deviation hs hrun hasked := hasked.stays hbuild ((runBoth_ensures href hcand hs _).2 _ _ hrun).1
  divergence hs hrun hasked := hasked.stays hbuild ((runBoth_ensures href hcand hs _).2 _ _ hrun).1

end

/-- In the world both implementations can be called. -/
def Callable (c : Checker) (w : World) : Prop := w.Ready c.reference.path ∧ w.Ready c.candidate.path

theorem callable_build (w : World) (b : Builder) (hw : c.Callable w) : c.Callable { w with builder := b } :=
  ⟨hw.1.of_paths_eq rfl, hw.2.of_paths_eq rfl⟩

/-- Invocations that follow routines are deterministic where they can be called. -/
theorem deterministic_of_follows {r r' : Routine} (hr : c.reference.Follows r) (hr' : c.candidate.Follows r')
    (o : Oracle σ) : c.Deterministic o c.Callable :=
  deterministic_of_build callable_build (Invocation.deterministic_of_follows callable_build (fun _ hw => hw.1) hr)
    (Invocation.deterministic_of_follows callable_build (fun _ hw => hw.2) hr') o

/-! ### Stages -/

/-- The counterexample is an input, read as a map that it lists, with the outcomes of the two implementations
there, which are different. -/
def Confirmed (c : Checker) (fit : World → Prop) (x : Counterexample) : Prop :=
  x.reference ≠ x.candidate ∧ ∃ m : InputMap, m.Plain ∧ x.input = m.assignments ∧
    c.reference.Yields fit m x.reference ∧ c.candidate.Yields fit m x.candidate

/-- Checking some of the inputs is sound: it stays in the class, and what it finds to differ does. -/
def Sound (c : Checker) (fit : World → Prop) (d : Discovery) (s : Session σ) : Prop :=
  fit s.world ∧ ∀ x, d = .difference x → c.Confirmed fit x

theorem sound_difference (hs : fit s.world) {x : Counterexample} (hx : c.Confirmed fit x) :
    c.Sound fit (.difference x) s := by
  refine ⟨hs, ?_⟩
  rintro _ ⟨⟩
  exact hx

section Stages

variable {s' s'' : Session σ} {run : PairRun} {input : Assignments} {d : Discovery} (hc : c.Deterministic o fit)
  (hs : fit s.world)
include hc hs

/-- A difference that a run shows is confirmed by it. -/
theorem runBoth_confirms (hm : m.Plain) (hrun : c.runBoth m s = (.ok run, s')) :
    fit s'.world ∧ run.inputs.Plain ∧ (run.differ = true → ∀ stage, c.Confirmed fit (run.counterexample stage)) := by
  obtain ⟨hs', rfl, href, hcand⟩ := (runBoth_ensures hc.reference hc.candidate hs m).2 run s' hrun
  exact ⟨hs', hm, fun hdiffer stage => ⟨of_decide_eq_true hdiffer, run.inputs, hm, rfl, href, hcand⟩⟩

variable (hm : m.Plain) (hrun : c.runBoth m s = (.ok run, s'))
include hm hrun

theorem DivergenceStage.sound (h : c.DivergenceStage o run s' (.ok d, s'')) : c.Sound fit d s'' := by
  obtain ⟨-, hplain, -⟩ := runBoth_confirms hc hs hm hrun
  have hstays := fun {f a t} (hasked : Asked o .divergence run.divergence s' f a t) => hc.divergence hs hrun hasked
  cases h with
  | undecided hasked => exact ⟨hstays hasked, by rintro _ ⟨⟩⟩
  | refused hasked => exact ⟨hstays hasked, by rintro _ ⟨⟩⟩
  | confirmed hasked hagain hdiffer =>
      obtain ⟨hs'', -, hconfirmed⟩ := runBoth_confirms hc (hstays hasked) (hplain.applyModel _) hagain
      exact sound_difference hs'' (hconfirmed hdiffer _)
  | unconfirmed hasked hagain =>
      exact ⟨(runBoth_confirms hc (hstays hasked) (hplain.applyModel _) hagain).1, by rintro _ ⟨⟩⟩

theorem DeviationStage.sound (h : c.DeviationStage o input run s' (.ok d, s'')) : c.Sound fit d s'' := by
  obtain ⟨-, hplain, -⟩ := runBoth_confirms hc hs hm hrun
  have hstays := fun {f a t} (hasked : Asked o .deviation run.deviation s' f a t) => hc.deviation hs hrun hasked
  cases h with
  | undecided hasked => exact ⟨hstays hasked, by rintro _ ⟨⟩⟩
  | refused hasked => exact ⟨hstays hasked, by rintro _ ⟨⟩⟩
  | confirmed hasked hagain hdiffer =>
      obtain ⟨hs'', -, hconfirmed⟩ := runBoth_confirms hc (hstays hasked) (hplain.applyModel _) hagain
      exact sound_difference hs'' (hconfirmed hdiffer _)
  | panicked hasked hagain =>
      exact ⟨(runBoth_confirms hc (hstays hasked) (hplain.applyModel _) hagain).1, by rintro _ ⟨⟩⟩
  | divergence hasked hagain hsame hreturned hstage =>
      exact hstage.sound hc (hstays hasked) (hplain.applyModel _) hagain

omit hm hrun

theorem Stages.sound (h : c.Stages o input s (.ok d, s')) : c.Sound fit d s' := by
  have hplain := InputMap.plain_inputMap input
  cases h with
  | different hrun hdiffer =>
      obtain ⟨hs', -, hconfirmed⟩ := runBoth_confirms hc hs hplain hrun
      exact sound_difference hs' (hconfirmed hdiffer _)
  | deviation hrun hsame hstage => exact hstage.sound hc hs hplain hrun

end Stages

/-! ### Reports -/

/-- The report of a check: the verdict is as the counterexample says, and the counterexample is confirmed. -/
def Reported (c : Checker) (fit : World → Prop) (fin : CheckEnd) (s : Session σ) : Prop :=
  fit s.world ∧ (fin.report.verdict = .notEquivalent ↔ fin.report.counterexample ≠ none) ∧
    ∀ x, fin.report.counterexample = some x → c.Confirmed fit x

theorem reported_report (hs : fit s.world) {found : Option Counterexample}
    (hfound : ∀ x, found = some x → c.Confirmed fit x) (findings : List Finding) (checked : Nat) (cancelled : Bool) :
    c.Reported fit ⟨c.report found findings checked, cancelled⟩ s :=
  ⟨hs, Verdict.decide_eq_notEquivalent_iff found findings, hfound⟩

theorem reported_none (hs : fit s.world) (findings : List Finding) (checked : Nat) (cancelled : Bool) :
    c.Reported fit ⟨c.report none findings checked, cancelled⟩ s :=
  reported_report hs (by rintro _ ⟨⟩) findings checked cancelled

theorem Course.reported (hc : c.Deterministic o fit) {inputs : List Assignments} {findings : List Finding}
    {checked : Nat} {out : Except CallError CheckEnd × Session σ} (h : c.Course o inputs findings checked s out) :
    fit s.world → ∀ fin s', out = (.ok fin, s') → c.Reported fit fin s' := by
  induction h with
  | done =>
      rintro hs _ _ ⟨⟩
      exact reported_none hs _ _ _
  | cancelled =>
      rintro hs _ _ ⟨⟩
      exact reported_none hs _ _ _
  | failed => rintro _ _ _ ⟨⟩
  | found hone =>
      rintro hs _ _ ⟨⟩
      obtain ⟨hs', hconfirmed⟩ := hone.sound hc hs
      refine reported_report hs' ?_ _ _ _
      rintro _ ⟨⟩
      exact hconfirmed _ rfl
  | nothing hone hrest ih => exact fun hs => ih (hone.sound hc hs).1
  | stopped hone =>
      rintro hs _ _ ⟨⟩
      exact reported_none (hone.sound hc hs).1 _ _ _
  | noted hone hstop hrest ih => exact fun hs => ih (hone.sound hc hs).1

theorem reported_of_check (hc : c.Deterministic o fit) (hs : fit s.world) {inputs : List Assignments} {fin : CheckEnd}
    {s' : Session σ} (h : c.check o inputs s = (.ok fin, s')) : c.Reported fit fin s' := by
  obtain ⟨s₁, hcourse, rfl⟩ := exists_course_of_check h
  exact hcourse.reported hc hs fin s₁ rfl

/-- A confirmed counterexample shows up again. -/
theorem Confirmed.replay (hc : c.Deterministic o fit) {x : Counterexample} (hx : c.Confirmed fit x)
    (hs : fit s.world) :
    ∃ y s', c.replay x.input s = (.ok (some y), s') ∧ y.input = x.input ∧ y.reference = x.reference ∧
      y.candidate = x.candidate := by
  obtain ⟨hdiffer, m, hm, hinput, href, hcand⟩ := hx
  obtain ⟨out, s₁, hrun, hs₁, hout⟩ := runOne_of_yields hc.reference hs href
  obtain ⟨out', s₂, hrun', -, hout'⟩ := runOne_of_yields hc.candidate hs₁ hcand
  let run : PairRun := ⟨m, out.1, out'.1, out.2, out'.2⟩
  have hboth : c.runBoth m s = (.ok run, s₂) := (bind_of_ok hrun).trans ((bind_of_ok hrun').trans rfl)
  have hagain : run.differ = true := by
    refine decide_eq_true ?_
    change out.1.outcome ≠ out'.1.outcome
    rwa [hout, hout']
  refine ⟨run.counterexample .replay, s₂, ?_, hinput.symm, hout, hout'⟩
  rw [hinput, Checker.replay, hm.inputMap_assignments, bind_of_ok hboth, if_pos hagain]
  rfl

end Checker

/-- A check calls two implementations not equivalent exactly if it has a counterexample, and running both
again on its input gives it again. -/
theorem not_equivalent_iff_replayed (c : Checker) (o : Oracle σ) (inputs : List Assignments) (fit : World → Prop)
    (hc : c.Deterministic o fit) {s s' : Session σ} (hs : fit s.world) {fin : CheckEnd}
    (hcheck : c.check o inputs s = (.ok fin, s')) :
    (fin.report.verdict = .notEquivalent ↔ fin.report.counterexample ≠ none) ∧ fit s'.world ∧
      ∀ x, fin.report.counterexample = some x → x.reference ≠ x.candidate ∧
        ∀ t : Session σ, fit t.world → ∃ y t', c.replay x.input t = (.ok (some y), t') ∧
          y.input = x.input ∧ y.reference = x.reference ∧ y.candidate = x.candidate := by
  obtain ⟨hs', hverdict, hconfirmed⟩ := Checker.reported_of_check hc hs hcheck
  refine ⟨hverdict, hs', fun x hx => ⟨(hconfirmed x hx).1, fun t ht => (hconfirmed x hx).replay hc ht⟩⟩

/-- An oracle that says everything to hold at the least integer, and throws away all terms. The absolute
value and the one that saturates agree at 0 and differ at the least integer. -/
theorem not_equivalent_iff_replayed_of_liar :
    let abs : Routine := .param "x" (.operation (.const 0) (.operation (.compare .lt 0 1)
      (.branch 0 (.operation (.unary .neg 0) (.ret 2)) (.ret 0))))
    let saturating : Routine := .param "x" (.operation (.const 0) (.operation (.compare .lt 0 1)
      (.branch 0 (.operation (.unary .neg 0) (.operation (.compare .lt 2 1)
        (.branch 1 (.operation (.const Int64.maxValue) (.ret 3)) (.ret 2)))) (.ret 0))))
    let c : Checker := { reference := ⟨"abs", ["x"], fun args => abs.run args {}, 0, 0⟩,
                         candidate := ⟨"saturating", ["x"], fun args => saturating.run args {}, 1, 0⟩ }
    let liar : Oracle Unit := ⟨fun _ s _ => ((.ok (some ⟨[("x", .ofInt64 Int64.minValue)]⟩), s), {})⟩
    let s : Session Unit := { world := { paths := #[{}, {}] }, oracle := () }
    let fit : World → Prop := fun w => w.Ready c.reference.path ∧ w.Ready c.candidate.path
    c.Deterministic liar fit ∧ fit s.world ∧
      ∃ fin s' x y t', c.check liar [[⟨"x", 0⟩]] s = (.ok fin, s') ∧ fin.report.verdict = .notEquivalent ∧
        fin.report.counterexample = some x ∧ x.input = [⟨"x", Int64.minValue⟩] ∧ x.reference ≠ x.candidate ∧
        c.replay x.input s' = (.ok (some y), t') ∧ y.input = x.input ∧ y.reference = x.reference ∧
        y.candidate = x.candidate := by
  intro abs saturating c liar s fit
  have habs : c.reference.Follows abs := fun _ => rfl
  have hsaturating : c.candidate.Follows saturating := fun _ => rfl
  have hc : c.Deterministic liar fit := Checker.deterministic_of_follows habs hsaturating liar
  have hs : fit s.world := ⟨⟨by decide, rfl⟩, by decide, rfl⟩
  have hinput : ((c.check liar [[⟨"x", 0⟩]] s).1.toOption.bind (·.report.counterexample)).map (·.input) =
      some [⟨"x", Int64.minValue⟩] := by
    decide +kernel
  rcases hcheck : c.check liar [[⟨"x", 0⟩]] s with ⟨err | fin, s'⟩
  · rw [hcheck] at hinput
    cases hinput
  · rw [hcheck] at hinput
    obtain ⟨hverdict, hs', hreplay⟩ := not_equivalent_iff_replayed c liar _ fit hc hs hcheck
    obtain ⟨x, hx, hxinput⟩ := Option.map_eq_some_iff.mp hinput
    change fin.report.counterexample = some x at hx
    obtain ⟨hdiffer, hagain⟩ := hreplay x hx
    obtain ⟨y, t', hy⟩ := hagain s' hs'
    have hsome : fin.report.counterexample ≠ none := by
      rw [hx]
      exact nofun
    exact ⟨hc, hs, fin, s', x, y, t', rfl, hverdict.mpr hsome, hx, hxinput, hdiffer, hy⟩

end Pathwise
