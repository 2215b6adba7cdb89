import Pathwise.Proofs.Divergence

/-! What a check that reports nothing has shown. It has compared the outcomes on its input. After that it leaves the
paths of this input: it looks for inputs that take one of the two paths only, and it is the pair of paths of such
inputs on which it goes on to look for different results. On that pair the implementations agree everywhere. On the
paths of the input itself they need not, unless no inputs went into the results: the square and the identity agree
at 0, neither branches, and the check has nothing more to ask. -/

namespace Pathwise

open Builder

variable {σ α : Type} {good : σ → Prop}

/-- No input went into the result. -/
theorem RunResult.outcomeAt_of_origin {r : RunResult} (h : r.value.origin = none) (ρ : Valuation) :
    r.outcomeAt ρ = r.outcome := by
  unfold outcomeAt outcome
  rw [SymInt.meaning_of_origin h]
  split_ifs <;> rfl

theorem PairRun.outcome_eq_of_differ {run : PairRun} (h : run.differ = false) :
    run.reference.outcome = run.candidate.outcome := by
  rw [PairRun.differ, decide_eq_false_iff_not, not_not] at h
  exact h

namespace Checker

variable {c : Checker} {r r' : Routine} {o : Oracle σ} {b : Builder} {run : PairRun}

/-- On all inputs that satisfy the path conditions of the two runs, the implementations have the same outcome. -/
def AgreeOn (c : Checker) (run : PairRun) : Prop :=
  ∀ m : InputMap, m.shape = run.inputs.shape → run.referencePath.holds m.valuation = true →
    run.candidatePath.holds m.valuation = true →
    ∃ y, c.reference.Yields c.Callable m y ∧ c.candidate.Yields c.Callable m y

section

variable (hr : c.reference.Follows r) (hr' : c.candidate.Follows r') (hb : b.Consistent)
  (hrun : c.Recorded r r' b run)
include hr hr' hb hrun

theorem Recorded.agreeOn (h : ∀ ρ, run.referencePath.holds ρ = true → run.candidatePath.holds ρ = true →
    run.reference.outcomeAt ρ = run.candidate.outcomeAt ρ) : c.AgreeOn run := by
  intro m hshape href hcand
  obtain ⟨hyref, hycand⟩ := hrun.yields hr hr' hb hshape.symm href hcand
  rw [← h m.valuation href hcand] at hycand
  exact ⟨_, hyref, hycand⟩

/-- Outcomes that do not depend on inputs are those of the runs. -/
theorem Recorded.agreeOn_of_fixed (hagrees : run.differ = false)
    (href : ∀ ρ, run.reference.outcomeAt ρ = run.reference.outcome)
    (hcand : ∀ ρ, run.candidate.outcomeAt ρ = run.candidate.outcome) : c.AgreeOn run := by
  refine hrun.agreeOn hr hr' hb fun ρ _ _ => ?_
  rw [href, hcand, PairRun.outcome_eq_of_differ hagrees]

/-- If nothing satisfies the formula of the last stage, the results mean the same on both paths. -/
theorem Recorded.agreeOn_of_undiverging (hagrees : run.differ = false)
    (hrest : (run.reference.panicked || run.candidate.panicked) = true ∨
      Undiverging (fun a p => a.Satisfies p ∧ a.Refuses p) run) : c.AgreeOn run := by
  have hpanicked := RunResult.panicked_eq_of_outcome_eq (PairRun.outcome_eq_of_differ hagrees)
  rcases hcase : run.candidate.panicked with _ | _
  · -- neither panicked, so the formula was asked and refused
    rw [hcase] at hpanicked
    rw [hpanicked, hcase] at hrest
    obtain ⟨f, ⟨-, hrefuses⟩, hmeans⟩ := hrest.resolve_left (by decide)
    refine hrun.agreeOn hr hr' hb fun ρ href hcand => ?_
    have hfalse := hrefuses rfl ρ
    rw [hmeans, href, hcand, Bool.and_self, Bool.and_true, bne_eq_false_iff_eq] at hfalse
    exact (RunResult.outcomeAt_eq_iff hpanicked hcase).mpr hfalse
  · rw [hcase] at hpanicked
    exact hrun.agreeOn_of_fixed hr hr' hb hagrees (fun _ => RunResult.outcomeAt_of_panicked hpanicked)
      fun _ => RunResult.outcomeAt_of_panicked hcase

end

end Checker

/-- If a check with an exact oracle reports nothing, then the implementations have the same outcome on its input,
and on all of its two paths if no inputs went into the two results. And either the same inputs take the two paths,
or the check has run both on inputs that take one of them only, and they agree on all of the paths taken there. -/
theorem silent_check_agrees {c : Checker} {r r' : Routine} (hr : c.reference.Follows r)
    (hr' : c.candidate.Follows r') {o : Oracle σ} (ho : o.Answers good fun a p => a.Satisfies p ∧ a.Refuses p)
    {s s' : Session σ} (hs : c.Fit good s) {input : Assignments}
    (hsilent : c.checkOne o input s = (.ok .nothing, s')) :
    ∃ run s₁, c.runBoth input.inputMap s = (.ok run, s₁) ∧
      run.reference.outcome = run.candidate.outcome ∧
      (run.reference.value.origin = none → run.candidate.value.origin = none → c.AgreeOn run) ∧
      ((∀ ρ, run.referencePath.holds ρ = run.candidatePath.holds ρ) ∨
        ∃ s₂ again s₃, c.Fit good s₂ ∧ c.runBoth again.inputs s₂ = (.ok again, s₃) ∧
          again.inputs.shape = run.inputs.shape ∧
          run.referencePath.holds again.inputs.valuation ≠ run.candidatePath.holds again.inputs.valuation ∧
          c.AgreeOn again) := by
  have hstages := c.checkOne_stages o input s
  rw [hsilent] at hstages
  have hend := hstages.ends hr hr' ho (fun _ _ h => h.1) hs (.refl s)
  obtain ⟨run, s₁, hran, hb, hrec, hagrees, hundeviating⟩ := hend.silent rfl
  refine ⟨run, s₁, hran, PairRun.outcome_eq_of_differ hagrees, fun href hcand => ?_, ?_⟩
  · exact hrec.agreeOn_of_fixed hr hr' hb hagrees (RunResult.outcomeAt_of_origin href)
      (RunResult.outcomeAt_of_origin hcand)
  · cases hundeviating with
    | refused f hrefused hmeans =>
        refine Or.inl fun ρ => ?_
        have hfalse := hrefused.2 rfl ρ
        rwa [hmeans, bne_eq_false_iff_eq] at hfalse
    | rerun s₂ s₃ again hs₂ hran₂ hb₃ hrec₃ hshape hdeviates hagrees₃ hrest =>
        exact Or.inr ⟨s₂, again, s₃, hs₂, hran₂, hshape, hdeviates,
          hrec₃.agreeOn_of_undiverging hr hr' hb₃ hagrees₃ hrest⟩

/-! ### A check that goes on to other paths, and one that does not -/

/-- One of the two handles 0 on its own. Away from 0 they are shown to agree. -/
theorem silent_check_agrees_of_zero_test :
    let zeroFirst : Routine := .param "x" (.operation (.const 0) (.operation (.compare .eq 0 1)
      (.branch 0 (.ret 1) (.ret 0))))
    let same : Routine := .param "x" (.ret 0)
    let c : Checker := { reference := ⟨"zeroFirst", ["x"], fun args => zeroFirst.run args {}, 0, 0⟩,
                         candidate := ⟨"same", ["x"], fun args => same.run args {}, 1, 0⟩ }
    let o := Oracle.ofSamples [0, 1]
    let s : Session Unit := { world := { paths := #[{}, {}] }, oracle := () }
    c.Fit (fun _ => True) s ∧ (o.Answers (fun _ => True) fun a p => a.Satisfies p ∧ a.Refuses p) ∧
      ∃ s' run s₁ again, ∃ s₂ s₃ : Session Unit, c.checkOne o [⟨"x", 0⟩] s = (.ok .nothing, s') ∧
        c.runBoth (Assignments.inputMap [⟨"x", 0⟩]) s = (.ok run, s₁) ∧
        c.runBoth again.inputs s₂ = (.ok again, s₃) ∧
        run.referencePath.holds again.inputs.valuation ≠ run.candidatePath.holds again.inputs.valuation ∧
        c.AgreeOn again := by
  intro zeroFirst same c o s
  have hs : c.Fit (fun _ => True) s := ⟨⟨by decide, rfl⟩, ⟨by decide, rfl⟩, consistent_empty, trivial⟩
  have ho : o.Answers (fun _ => True) fun a p => a.Satisfies p ∧ a.Refuses p := Oracle.ofSamples_answers _
  obtain ⟨_, s', hsilent, rfl⟩ : ∃ d s', c.checkOne o [⟨"x", 0⟩] s = (.ok d, s') ∧ d = .nothing :=
    Engine.exists_of_any (by decide +kernel)
  obtain ⟨run, s₁, hran, -, -, hequal | ⟨s₂, again, s₃, -, hran₂, -, hdeviates, hagree⟩⟩ :=
    silent_check_agrees (r := zeroFirst) (fun _ => rfl) (fun _ => rfl) ho hs hsilent
  · -- 1 takes one of the paths of 0 only
    obtain ⟨run', s₁', hran', hne⟩ : ∃ run s₁, c.runBoth (Assignments.inputMap [⟨"x", 0⟩]) s = (.ok run, s₁) ∧
        run.referencePath.holds (Assignments.inputMap [⟨"x", 1⟩]).valuation ≠
          run.candidatePath.holds (Assignments.inputMap [⟨"x", 1⟩]).valuation :=
      Engine.exists_of_any (by decide +kernel)
    cases hran.symm.trans hran'
    exact absurd (hequal _) hne
  · exact ⟨hs, ho, s', run, s₁, again, s₂, s₃, hsilent, hran, hran₂, hdeviates, hagree⟩

/-- The square and the identity agree at 0, and the check of 0 reports nothing. Both take the path of 0 everywhere,
and differ at 2. -/
theorem silent_check_misses_square :
    let same : Routine := .param "x" (.ret 0)
    let square : Routine := .param "x" (.operation (.binary .mul 0 0) (.ret 1))
    let c : Checker := { reference := ⟨"same", ["x"], fun args => same.run args {}, 0, 0⟩,
                         candidate := ⟨"square", ["x"], fun args => square.run args {}, 1, 0⟩ }
    let o := Oracle.ofSamples [0, 2]
    let s : Session Unit := { world := { paths := #[{}, {}] }, oracle := () }
    c.reference.Follows same ∧ c.candidate.Follows square ∧ c.Fit (fun _ => True) s ∧
      (o.Answers (fun _ => True) fun a p => a.Satisfies p ∧ a.Refuses p) ∧
      ∃ s' run s₁, c.checkOne o [⟨"x", 0⟩] s = (.ok .nothing, s') ∧
        c.runBoth (Assignments.inputMap [⟨"x", 0⟩]) s = (.ok run, s₁) ∧ ¬c.AgreeOn run := by
  intro same square c o s
  obtain ⟨_, s', hsilent, rfl⟩ : ∃ d s', c.checkOne o [⟨"x", 0⟩] s = (.ok d, s') ∧ d = .nothing :=
    Engine.exists_of_any (by decide +kernel)
  obtain ⟨run, s₁, hran, hshape, href, hcand⟩ : ∃ run s₁,
      c.runBoth (Assignments.inputMap [⟨"x", 0⟩]) s = (.ok run, s₁) ∧
        (Assignments.inputMap [⟨"x", 2⟩]).shape = run.inputs.shape ∧
        run.referencePath.holds (Assignments.inputMap [⟨"x", 2⟩]).valuation = true ∧
        run.candidatePath.holds (Assignments.inputMap [⟨"x", 2⟩]).valuation = true :=
    Engine.exists_of_any (by decide +kernel)
  refine ⟨fun _ => rfl, fun _ => rfl, ⟨⟨by decide, rfl⟩, ⟨by decide, rfl⟩, consistent_empty, trivial⟩,
    Oracle.ofSamples_answers _, s', run, s₁, hsilent, hran, fun hagree => ?_⟩
  obtain ⟨y, hy, hy'⟩ := hagree _ hshape href hcand
  have hsame := (hy s.world ⟨⟨by decide, rfl⟩, ⟨by decide, rfl⟩⟩).trans
    (hy' s.world ⟨⟨by decide, rfl⟩, ⟨by decide, rfl⟩⟩).symm
  revert hsame
  decide +kernel

end Pathwise
