import Pathwise.Equivalence
import Pathwise.Proofs.Sessions

/-! What a check can do. Checking one input goes through stages: both implementations are run, the oracle is asked for
inputs that take one of the two paths only, and on the paths taken there for inputs with different results. The relations
below list, for each stage and for the whole course of a check, every way in which it can go, failing calls included.
Nothing is assumed of the implementations or the oracle, and what is proved about checks elsewhere goes through these
cases. -/

namespace Pathwise

variable {σ : Type}

namespace PairRun

/-- The formula of the middle stage. -/
def deviation (run : PairRun) : Build Cond := Trace.deviation run.referencePath run.candidatePath

/-- The formula of the last stage. -/
def divergence (run : PairRun) : Build Cond :=
  Trace.divergence run.reference.value run.candidate.value run.referencePath run.candidatePath

end PairRun

namespace Checker

theorem inputs_of_runBoth {c : Checker} {m : InputMap} {run : PairRun} {s s' : Session σ}
    (h : c.runBoth m s = (.ok run, s')) : run.inputs = m := by
  rw [runBoth] at h
  rcases href : runOne c.reference m s with ⟨err | ⟨reference, referencePath⟩, s₁⟩
  · rw [bind_of_error href] at h
    cases h
  · rw [bind_of_ok href] at h
    dsimp only at h
    rcases hcand : runOne c.candidate m s₁ with ⟨err | ⟨candidate, candidatePath⟩, s₂⟩
    · rw [bind_of_error hcand] at h
      cases h
    · rw [bind_of_ok hcand] at h
      cases h
      rfl

/-! ### Stages -/

/-- A formula is built and put to the oracle. -/
inductive Asked (o : Oracle σ) (kind : QueryKind) (formula : Build Cond) (s : Session σ) :
    Cond → Answer → Session σ → Prop where
  | intro {f : Cond} {a : Answer} {s₁ s' : Session σ} (hbuild : Engine.build formula s = (.ok f, s₁))
      (hask : Engine.ask o kind (.solve f) s₁ = (.ok a, s')) : Asked o kind formula s f a s'

/-- The ways of the last stage. -/
inductive DivergenceStage (c : Checker) (o : Oracle σ) (run : PairRun) (s : Session σ) :
    Except CallError Discovery × Session σ → Prop where
  | undecided {f : Cond} {e : OracleError} {s' : Session σ}
      (hasked : Asked o .divergence run.divergence s f (.error e) s') :
      DivergenceStage c o run s (.ok (.finding (undecided .divergence run.inputs.assignments e)), s')
  | refused {f : Cond} {s' : Session σ} (hasked : Asked o .divergence run.divergence s f (.ok none) s') :
      DivergenceStage c o run s (.ok .nothing, s')
  | failed {f : Cond} {m : Model} {err : CallError} {s' s'' : Session σ}
      (hasked : Asked o .divergence run.divergence s f (.ok (some m)) s')
      (hrun : c.runBoth (run.inputs.applyModel m) s' = (.error err, s'')) :
      DivergenceStage c o run s (.error err, s'')
  | confirmed {f : Cond} {m : Model} {again : PairRun} {s' s'' : Session σ}
      (hasked : Asked o .divergence run.divergence s f (.ok (some m)) s')
      (hrun : c.runBoth (run.inputs.applyModel m) s' = (.ok again, s'')) (hdiffer : again.differ = true) :
      DivergenceStage c o run s (.ok (.difference (again.counterexample .divergence)), s'')
  | unconfirmed {f : Cond} {m : Model} {again : PairRun} {s' s'' : Session σ}
      (hasked : Asked o .divergence run.divergence s f (.ok (some m)) s')
      (hrun : c.runBoth (run.inputs.applyModel m) s' = (.ok again, s'')) (hsame : again.differ = false) :
      DivergenceStage c o run s (.ok (.finding (unconfirmed again.inputs.assignments)), s'')

/-- The ways of the middle stage and of what follows it. -/
inductive DeviationStage (c : Checker) (o : Oracle σ) (input : Assignments) (run : PairRun) (s : Session σ) :
    Except CallError Discovery × Session σ → Prop where
  | undecided {f : Cond} {e : OracleError} {s' : Session σ}
      (hasked : Asked o .deviation run.deviation s f (.error e) s') :
      DeviationStage c o input run s (.ok (.finding (undecided .deviation input e)), s')
  | refused {f : Cond} {s' : Session σ} (hasked : Asked o .deviation run.deviation s f (.ok none) s') :
      DeviationStage c o input run s (.ok .nothing, s')
  | failed {f : Cond} {m : Model} {err : CallError} {s' s'' : Session σ}
      (hasked : Asked o .deviation run.deviation s f (.ok (some m)) s')
      (hrun : c.runBoth (run.inputs.applyModel m) s' = (.error err, s'')) :
      DeviationStage c o input run s (.error err, s'')
  | confirmed {f : Cond} {m : Model} {again : PairRun} {s' s'' : Session σ}
      (hasked : Asked o .deviation run.deviation s f (.ok (some m)) s')
      (hrun : c.runBoth (run.inputs.applyModel m) s' = (.ok again, s'')) (hdiffer : again.differ = true) :
      DeviationStage c o input run s (.ok (.difference (again.counterexample .deviation)), s'')
  | panicked {f : Cond} {m : Model} {again : PairRun} {s' s'' : Session σ}
      (hasked : Asked o .deviation run.deviation s f (.ok (some m)) s')
      (hrun : c.runBoth (run.inputs.applyModel m) s' = (.ok again, s'')) (hsame : again.differ = false)
      (hpanicked : (again.reference.panicked || again.candidate.panicked) = true) :
      DeviationStage c o input run s (.ok .nothing, s'')
  | divergence {f : Cond} {m : Model} {again : PairRun} {s' s'' : Session σ}
      {out : Except CallError Discovery × Session σ}
      (hasked : Asked o .deviation run.deviation s f (.ok (some m)) s')
      (hrun : c.runBoth (run.inputs.applyModel m) s' = (.ok again, s'')) (hsame : again.differ = false)
      (hreturned : (again.reference.panicked || again.candidate.panicked) = false)
      (hstage : c.DivergenceStage o again s'' out) : DeviationStage c o input run s out

/-- The ways of an input through all stages. -/
inductive Stages (c : Checker) (o : Oracle σ) (input : Assignments) (s : Session σ) :
    Except CallError Discovery × Session σ → Prop where
  | failed {err : CallError} {s' : Session σ} (hrun : c.runBoth input.inputMap s = (.error err, s')) :
      Stages c o input s (.error err, s')
  | different {run : PairRun} {s' : Session σ} (hrun : c.runBoth input.inputMap s = (.ok run, s'))
      (hdiffer : run.differ = true) : Stages c o input s (.ok (.difference (run.counterexample .generated)), s')
  | deviation {run : PairRun} {s' : Session σ} {out : Except CallError Discovery × Session σ}
      (hrun : c.runBoth input.inputMap s = (.ok run, s')) (hsame : run.differ = false)
      (hstage : c.DeviationStage o input run s' out) : Stages c o input s out

theorem exists_asked (o : Oracle σ) (kind : QueryKind) (formula : Build Cond) (s : Session σ) :
    ∃ f s₁ a s', Engine.build formula s = (.ok f, s₁) ∧ Engine.ask o kind (.solve f) s₁ = (.ok a, s') := by
  obtain ⟨a, s', hask, -⟩ := Engine.ask_eq o kind (.solve (s.world.build formula).1)
    { s with world := (s.world.build formula).2 }
  exact ⟨_, _, a, s', rfl, hask⟩

theorem checkDivergence_stage (c : Checker) (o : Oracle σ) (run : PairRun) (s : Session σ) :
    c.DivergenceStage o run s (c.checkDivergence o run s) := by
  obtain ⟨f, s₁, a, s', hbuild, hask⟩ := exists_asked o .divergence run.divergence s
  have hasked := Asked.intro hbuild hask
  rw [PairRun.divergence] at hbuild
  rw [checkDivergence, bind_of_ok hbuild, bind_of_ok hask]
  rcases a with e | _ | m
  · exact .undecided hasked
  · exact .refused hasked
  · dsimp only
    rcases hrun : c.runBoth (run.inputs.applyModel m) s' with ⟨err | again, s''⟩
    · rw [bind_of_error hrun]
      exact .failed hasked hrun
    · rw [bind_of_ok hrun]
      split_ifs with hdiffer
      · exact .confirmed hasked hrun hdiffer
      · exact .unconfirmed hasked hrun (Bool.eq_false_iff.mpr hdiffer)

theorem checkDeviation_stage (c : Checker) (o : Oracle σ) (input : Assignments) (run : PairRun) (s : Session σ) :
    c.DeviationStage o input run s (c.checkDeviation o input run s) := by
  obtain ⟨f, s₁, a, s', hbuild, hask⟩ := exists_asked o .deviation run.deviation s
  have hasked := Asked.intro hbuild hask
  rw [PairRun.deviation] at hbuild
  rw [checkDeviation, bind_of_ok hbuild, bind_of_ok hask]
  rcases a with e | _ | m
  · exact .undecided hasked
  · exact .refused hasked
  · dsimp only
    rcases hrun : c.runBoth (run.inputs.applyModel m) s' with ⟨err | again, s''⟩
    · rw [bind_of_error hrun]
      exact .failed hasked hrun
    · rw [bind_of_ok hrun]
      split_ifs with hdiffer hpanicked
      · exact .confirmed hasked hrun hdiffer
      · exact .panicked hasked hrun (Bool.eq_false_iff.mpr hdiffer) hpanicked
      · exact .divergence hasked hrun (Bool.eq_false_iff.mpr hdiffer) (Bool.eq_false_iff.mpr hpanicked)
          (checkDivergence_stage c o again s'')

theorem checkOne_stages (c : Checker) (o : Oracle σ) (input : Assignments) (s : Session σ) :
    c.Stages o input s (c.checkOne o input s) := by
  rw [checkOne]
  rcases hrun : c.runBoth input.inputMap s with ⟨err | run, s'⟩
  · rw [bind_of_error hrun]
    exact .failed hrun
  · rw [bind_of_ok hrun]
    split_ifs with hdiffer
    · exact .different hrun hdiffer
    · exact .deviation hrun (Bool.eq_false_iff.mpr hdiffer) (checkDeviation_stage c o input run s')

/-! ### Checks -/

/-- The course of a check over the inputs that are left, with the findings so far. -/
inductive Course (c : Checker) (o : Oracle σ) : List Assignments → List Finding → Nat → Session σ →
    Except CallError CheckEnd × Session σ → Prop where
  | done {findings : List Finding} {checked : Nat} {s : Session σ} :
      Course c o [] findings checked s (.ok ⟨c.report none findings checked, false⟩, s)
  | cancelled {input : Assignments} {inputs : List Assignments} {findings : List Finding} {checked : Nat}
      {s : Session σ} (hcancelled : c.cancelled s.events = true) :
      Course c o (input :: inputs) findings checked s (.ok ⟨c.report none findings checked, true⟩, s)
  | failed {input : Assignments} {inputs : List Assignments} {findings : List Finding} {checked : Nat}
      {err : CallError} {s s' : Session σ} (hone : c.Stages o input s (.error err, s')) :
      Course c o (input :: inputs) findings checked s (.error err, s')
  | found {input : Assignments} {inputs : List Assignments} {findings : List Finding} {checked : Nat}
      {x : Counterexample} {s s' : Session σ} (hone : c.Stages o input s (.ok (.difference x), s')) :
      Course c o (input :: inputs) findings checked s (.ok ⟨c.report (some x) findings (checked + 1), false⟩, s')
  | nothing {input : Assignments} {inputs : List Assignments} {findings : List Finding} {checked : Nat}
      {s s' : Session σ} {out : Except CallError CheckEnd × Session σ} (hone : c.Stages o input s (.ok .nothing, s'))
      (hrest : Course c o inputs findings (checked + 1) s' out) :
      Course c o (input :: inputs) findings checked s out
  | stopped {input : Assignments} {inputs : List Assignments} {findings : List Finding} {checked : Nat}
      {f : Finding} {s s' : Session σ} (hone : c.Stages o input s (.ok (.finding f), s'))
      (hstop : c.stopOnFirst = true) :
      Course c o (input :: inputs) findings checked s
        (.ok ⟨c.report none (findings ++ [f]) (checked + 1), false⟩, s')
  | noted {input : Assignments} {inputs : List Assignments} {findings : List Finding} {checked : Nat}
      {f : Finding} {s s' : Session σ} {out : Except CallError CheckEnd × Session σ}
      (hone : c.Stages o input s (.ok (.finding f), s')) (hstop : c.stopOnFirst = false)
      (hrest : Course c o inputs (findings ++ [f]) (checked + 1) s' out) :
      Course c o (input :: inputs) findings checked s out

theorem checkAll_course (c : Checker) (o : Oracle σ) (inputs : List Assignments) : ∀ (findings : List Finding)
    (checked : Nat) (s : Session σ), c.Course o inputs findings checked s (c.checkAll o inputs findings checked s) := by
  induction inputs with
  | nil => exact fun findings checked s => .done
  | cons input inputs ih =>
      intro findings checked s
      have hget : (get : Engine σ (Session σ)) s = (.ok s, s) := rfl
      rw [checkAll, bind_of_ok hget]
      by_cases hcancelled : c.cancelled s.events = true
      · rw [if_pos hcancelled]
        exact .cancelled hcancelled
      · rw [if_neg hcancelled]
        have hone := checkOne_stages c o input s
        rcases heq : c.checkOne o input s with ⟨err | d, s'⟩
        · rw [heq] at hone
          rw [bind_of_error heq]
          exact .failed hone
        · rw [heq] at hone
          rw [bind_of_ok heq]
          cases d with
          | nothing => exact .nothing hone (ih _ _ s')
          | difference x => exact .found hone
          | finding f =>
              dsimp only
              split_ifs with hstop
              · exact .stopped hone hstop
              · exact .noted hone (Bool.eq_false_iff.mpr hstop) (ih _ _ s')

variable {c : Checker} {o : Oracle σ} {inputs : List Assignments} {s s' : Session σ}

/-- A check that returns has gone through its inputs and then reports the verdict. -/
theorem exists_course_of_check {fin : CheckEnd} (h : c.check o inputs s = (.ok fin, s')) :
    ∃ s₁, c.Course o inputs c.prior 0 s (.ok fin, s₁) ∧
      s' = { s₁ with events := s₁.events ++ [.verdict fin.report.verdict.text] } := by
  have hcourse := checkAll_course c o inputs c.prior 0 s
  rw [check] at h
  rcases hall : c.checkAll o inputs c.prior 0 s with ⟨err | fin', s₁⟩
  · rw [bind_of_error hall] at h
    cases h
  · rw [bind_of_ok hall] at h
    cases h
    exact ⟨s₁, hall ▸ hcourse, rfl⟩

theorem course_of_check_error {err : CallError} (h : c.check o inputs s = (.error err, s')) :
    c.Course o inputs c.prior 0 s (.error err, s') := by
  have hcourse := checkAll_course c o inputs c.prior 0 s
  rw [check] at h
  rcases hall : c.checkAll o inputs c.prior 0 s with ⟨err' | fin, s₁⟩
  · rw [bind_of_error hall] at h
    cases h
    exact hall ▸ hcourse
  · rw [bind_of_ok hall] at h
    cases h

end Checker
end Pathwise
