import Pathwise.Proofs.Counterexamples

/-! An undecided query never ends in a verdict of equivalence. Each question of a check that the oracle leaves
undecided becomes one finding, and findings are kept to the end of the check, in front of them those that were made
before it. The verdict depends on the findings as a set: any of them rules out equivalence, and a possible
divergence outweighs an undecided query wherever it stands in the list. -/

namespace Pathwise

variable {σ : Type}

/-! ### Verdicts -/

/-- The kinds of findings that checks make. -/
def FindingKind.Standard (k : FindingKind) : Prop := k = .possibleDivergence ∨ k = .inconclusive

namespace Verdict

variable {found : Option Counterexample} {findings findings' : List Finding}

theorem decide_perm (h : findings'.Perm findings) : decide found findings' = decide found findings := by
  cases found with
  | some x => rfl
  | none => simp only [decide_none, (h.map _).mem_iff]

theorem decide_eq_possiblyDivergent_iff :
    decide found findings = .possiblyDivergent ↔ found = none ∧ ∃ f ∈ findings, f.kind = .possibleDivergence := by
  cases found with
  | some x => exact ⟨nofun, nofun⟩
  | none =>
      rw [decide_none, ← List.mem_map]
      split_ifs with hdivergence <;> simp [hdivergence]

variable (h : ∀ f ∈ findings, f.kind.Standard)
include h

theorem decide_eq_equivalent_iff : decide found findings = .equivalent ↔ found = none ∧ findings = [] := by
  cases found with
  | some x => exact ⟨nofun, nofun⟩
  | none =>
      constructor
      · intro heq
        refine ⟨rfl, List.eq_nil_iff_forall_not_mem.mpr fun f hf => ?_⟩
        have hmem : f.kind ∈ findings.map (·.kind) := List.mem_map_of_mem hf
        rw [decide_none] at heq
        split_ifs at heq with hdivergence hinconclusive
        rcases h f hf with hkind | hkind <;> rw [hkind] at hmem
        · exact hdivergence hmem
        · exact hinconclusive hmem
      · rintro ⟨-, rfl⟩
        rfl

theorem decide_eq_inconclusive_iff : decide found findings = .inconclusive ↔
    found = none ∧ findings ≠ [] ∧ ∀ f ∈ findings, f.kind ≠ .possibleDivergence := by
  cases found with
  | some x => exact ⟨nofun, nofun⟩
  | none =>
      constructor
      · intro heq
        refine ⟨rfl, fun hnil => ?_, fun f hf hkind => ?_⟩
        · rw [(decide_eq_equivalent_iff h).mpr ⟨rfl, hnil⟩] at heq
          cases heq
        · rw [decide_eq_possiblyDivergent_iff.mpr ⟨rfl, f, hf, hkind⟩] at heq
          cases heq
      · rintro ⟨-, hne, hnone⟩
        have hkinds : .possibleDivergence ∉ findings.map (·.kind) := by simpa using hnone
        have hfound : decide none findings ≠ .equivalent := fun heq => hne ((decide_eq_equivalent_iff h).mp heq).2
        rw [decide_none, if_neg hkinds] at hfound ⊢
        split_ifs at hfound ⊢
        · rfl
        · exact absurd rfl hfound

/-- Any finding rules out equivalence. -/
theorem decide_of_ne_nil (hne : findings ≠ []) :
    decide found findings ∈ [.notEquivalent, .possiblyDivergent, .inconclusive] := by
  cases found with
  | some x => exact List.mem_cons_self
  | none =>
      by_cases hdivergence : ∃ f ∈ findings, f.kind = .possibleDivergence
      · rw [decide_eq_possiblyDivergent_iff.mpr ⟨rfl, hdivergence⟩]
        simp
      · have hnone : ∀ f ∈ findings, f.kind ≠ .possibleDivergence := fun f hf hkind => hdivergence ⟨f, hf, hkind⟩
        rw [(decide_eq_inconclusive_iff h).mpr ⟨rfl, hne, hnone⟩]
        simp

end Verdict

/-! ### What a check asks and finds -/

/-- Findings account for what was asked between two sessions: one for each undecided question. -/
def Session.Accounts (s : Session σ) (findings : List Finding) (s' : Session σ) : Prop :=
  (∀ f ∈ findings, f.kind.Standard) ∧
    ∃ asked, s'.outcomes = s.outcomes ++ asked ∧ (findings.map (·.kind)).count .inconclusive = asked.count .error

def Discovery.findings : Discovery → List Finding
  | .nothing => []
  | .difference _ => []
  | .finding f => [f]

namespace Session

variable {s s' s'' : Session σ} {findings findings' : List Finding}

theorem Accounts.nil (h : s'.outcomes = s.outcomes) : s.Accounts [] s' :=
  ⟨nofun, [], by rw [h, List.append_nil], rfl⟩

theorem Accounts.trans (h : s.Accounts findings s') (h' : s'.Accounts findings' s'') :
    s.Accounts (findings ++ findings') s'' := by
  obtain ⟨hstandard, asked, hasked, hcount⟩ := h
  obtain ⟨hstandard', asked', hasked', hcount'⟩ := h'
  refine ⟨List.forall_mem_append.mpr ⟨hstandard, hstandard'⟩, asked ++ asked', ?_, ?_⟩
  · rw [hasked', hasked, List.append_assoc]
  · rw [List.map_append, List.count_append, List.count_append, hcount, hcount']

theorem Accounts.of_nil (h : s.Accounts [] s') (h' : s'.Accounts findings s'') : s.Accounts findings s'' := h.trans h'

theorem Accounts.decided {a : Option Model} (h : s'.outcomes = s.outcomes ++ [.ofAnswer (.ok a)]) :
    s.Accounts [] s' := by
  refine ⟨nofun, _, h, ?_⟩
  cases a <;> rfl

theorem Accounts.undecided {err : OracleError} (h : s'.outcomes = s.outcomes ++ [.ofAnswer (.error err)])
    (stage : Stage) (input : Assignments) : s.Accounts [Checker.undecided stage input err] s' :=
  ⟨List.forall_mem_singleton.mpr (Or.inr rfl), _, h, rfl⟩

theorem Accounts.unconfirmed (h : s.Accounts [] s') (input : Assignments) :
    s.Accounts [Checker.unconfirmed input] s' := by
  obtain ⟨-, asked, hasked, hcount⟩ := h
  exact ⟨List.forall_mem_singleton.mpr (Or.inl rfl), asked, hasked, hcount⟩

end Session

namespace Checker

variable {c : Checker} {o : Oracle σ} {s s' : Session σ} {run : PairRun} {input : Assignments} {d : Discovery}

theorem runOne_accounts (inv : Invocation) (m : InputMap) :
    Engine.Ensures (runOne inv m) s (fun _ => True) fun _ s' => s.Accounts [] s' := by
  rcases hcall : inv.call m s.world with ⟨err | ⟨result, t⟩, w⟩
  · exact Engine.ensures_of_error (runOne_of_error hcall) trivial
  · refine Engine.ensures_of_eq (runOne_eq hcall) (.nil ?_)
    simp [Session.outcomes, Event.outcome?]

theorem runBoth_accounts {m : InputMap} (h : c.runBoth m s = (.ok run, s')) : s.Accounts [] s' := by
  have hruns : Engine.Ensures (c.runBoth m) s (fun _ => True) fun _ s' => s.Accounts [] s' := by
    refine Engine.Ensures.bind (runOne_accounts c.reference m) fun out s₁ hs₁ => ?_
    refine Engine.Ensures.bind (runOne_accounts c.candidate m) fun out' s₂ hs₂ => ?_
    exact Engine.ensures_of_eq rfl (hs₁.trans hs₂)
  exact hruns.2 run s' h

theorem Asked.outcomes {kind : QueryKind} {formula : Build Cond} {f : Cond} {a : Answer}
    (h : Asked o kind formula s f a s') : s'.outcomes = s.outcomes ++ [.ofAnswer a] := by
  obtain ⟨hbuild, hask⟩ := h
  cases hbuild
  have houtcomes := Engine.outcomes_ask hask
  exact houtcomes

/-! Each stage asks one question, and goes on only if it was decided. -/

theorem DivergenceStage.accounts (h : c.DivergenceStage o run s (.ok d, s')) : s.Accounts d.findings s' := by
  cases h with
  | undecided hasked => exact .undecided hasked.outcomes _ _
  | refused hasked => exact .decided hasked.outcomes
  | confirmed hasked hrun _ => exact (Session.Accounts.decided hasked.outcomes).of_nil (runBoth_accounts hrun)
  | unconfirmed hasked hrun _ =>
      exact ((Session.Accounts.decided hasked.outcomes).of_nil (runBoth_accounts hrun)).unconfirmed _

theorem DeviationStage.accounts (h : c.DeviationStage o input run s (.ok d, s')) : s.Accounts d.findings s' := by
  cases h with
  | undecided hasked => exact .undecided hasked.outcomes _ _
  | refused hasked => exact .decided hasked.outcomes
  | confirmed hasked hrun _ => exact (Session.Accounts.decided hasked.outcomes).of_nil (runBoth_accounts hrun)
  | panicked hasked hrun _ _ => exact (Session.Accounts.decided hasked.outcomes).of_nil (runBoth_accounts hrun)
  | divergence hasked hrun _ _ hstage =>
      exact (Session.Accounts.decided hasked.outcomes).of_nil ((runBoth_accounts hrun).of_nil hstage.accounts)

theorem Stages.accounts (h : c.Stages o input s (.ok d, s')) : s.Accounts d.findings s' := by
  cases h with
  | different hrun _ => exact runBoth_accounts hrun
  | deviation hrun _ hstage => exact (runBoth_accounts hrun).of_nil hstage.accounts

/-- The report of a check adds findings for what was asked to the given ones, and its verdict is theirs. -/
def Reports (s : Session σ) (given : List Finding) (fin : CheckEnd) (s' : Session σ) : Prop :=
  fin.report.verdict = Verdict.decide fin.report.counterexample fin.report.findings ∧
    ∃ new, fin.report.findings = given ++ new ∧ s.Accounts new s'

theorem reports_given {s' : Session σ} (h : s.Accounts [] s') (c : Checker) (found : Option Counterexample)
    (given : List Finding) (checked : Nat) (cancelled : Bool) :
    Reports s given ⟨c.report found given checked, cancelled⟩ s' :=
  ⟨rfl, [], (List.append_nil given).symm, h⟩

theorem Reports.after {s' s'' : Session σ} {given new : List Finding} {fin : CheckEnd}
    (hfin : Reports s' (given ++ new) fin s'') (h : s.Accounts new s') : Reports s given fin s'' := by
  obtain ⟨hverdict, later, hfindings, hlater⟩ := hfin
  exact ⟨hverdict, new ++ later, by rw [hfindings, List.append_assoc], h.trans hlater⟩

theorem Course.reports {inputs : List Assignments} {given : List Finding} {checked : Nat}
    {out : Except CallError CheckEnd × Session σ} (h : c.Course o inputs given checked s out) :
    ∀ fin s', out = (.ok fin, s') → Reports s given fin s' := by
  induction h with
  | done | cancelled =>
      rintro _ _ ⟨⟩
      exact reports_given (.nil rfl) c none _ _ _
  | failed => rintro _ _ ⟨⟩
  | found hone =>
      rintro _ _ ⟨⟩
      exact reports_given hone.accounts c (some _) _ _ _
  | nothing hone _ ih =>
      refine fun fin s' hout => Reports.after ?_ hone.accounts
      rw [Discovery.findings, List.append_nil]
      exact ih fin s' hout
  | stopped hone _ =>
      rintro _ _ ⟨⟩
      exact Reports.after (reports_given (.nil rfl) c none _ _ _) hone.accounts
  | noted hone _ _ ih => exact fun fin s' hout => (ih fin s' hout).after hone.accounts

theorem reports_of_check {inputs : List Assignments} {fin : CheckEnd} (h : c.check o inputs s = (.ok fin, s')) :
    Reports s c.prior fin s' := by
  obtain ⟨s₁, hcourse, rfl⟩ := exists_course_of_check h
  obtain ⟨hverdict, new, hfindings, hstandard, asked, hasked, hcount⟩ := hcourse.reports fin s₁ rfl
  refine ⟨hverdict, new, hfindings, hstandard, asked, ?_, hcount⟩
  rw [← hasked]
  simp [Session.outcomes, Event.outcome?]

end Checker

/-- A question that is left undecided, or a finding that was made before, keeps a check from calling two
implementations equivalent: each undecided question of a check becomes a finding, and the verdict is equivalence
exactly if there is neither a counterexample nor a finding. A counterexample comes first, then a possible
divergence, in whatever order the findings stand. -/
theorem undecided_query_rules_out_equivalent (c : Checker) (o : Oracle σ) (inputs : List Assignments)
    {s s' : Session σ} {fin : CheckEnd}
    (hprior : ∀ f ∈ c.prior, f.kind = .possibleDivergence ∨ f.kind = .inconclusive)
    (hcheck : c.check o inputs s = (.ok fin, s')) :
    ∃ asked new, s'.outcomes = s.outcomes ++ asked ∧ fin.report.findings = c.prior ++ new ∧
      (new.map (·.kind)).count .inconclusive = asked.count .error ∧
      (.error ∈ asked ∨ c.prior ≠ [] →
        fin.report.verdict ∈ [.notEquivalent, .possiblyDivergent, .inconclusive]) ∧
      (fin.report.verdict = .equivalent ↔ fin.report.counterexample = none ∧ fin.report.findings = []) ∧
      (fin.report.verdict = .notEquivalent ↔ fin.report.counterexample ≠ none) ∧
      (fin.report.verdict = .possiblyDivergent ↔ fin.report.counterexample = none ∧
        ∃ f ∈ fin.report.findings, f.kind = .possibleDivergence) ∧
      (fin.report.verdict = .inconclusive ↔ fin.report.counterexample = none ∧ fin.report.findings ≠ [] ∧
        ∀ f ∈ fin.report.findings, f.kind ≠ .possibleDivergence) ∧
      ∀ findings, findings.Perm fin.report.findings →
        Verdict.decide fin.report.counterexample findings = fin.report.verdict := by
  obtain ⟨hverdict, new, hfindings, hnew, asked, hasked, hcount⟩ := Checker.reports_of_check hcheck
  have hstandard : ∀ f ∈ fin.report.findings, f.kind.Standard := by
    rw [hfindings]
    exact List.forall_mem_append.mpr ⟨hprior, hnew⟩
  have hempty : fin.report.findings = [] → .error ∉ asked ∧ c.prior = [] := by
    intro hnil
    rw [hfindings, List.append_eq_nil_iff] at hnil
    rw [hnil.2] at hcount
    exact ⟨List.count_eq_zero.mp hcount.symm, hnil.1⟩
  refine ⟨asked, new, hasked, hfindings, hcount, fun hundecided => ?_, ?_⟩
  · have hne : fin.report.findings ≠ [] := by
      intro hnil
      exact hundecided.elim (hempty hnil).1 fun hprior => hprior (hempty hnil).2
    rw [hverdict]
    exact Verdict.decide_of_ne_nil hstandard hne
  · rw [hverdict]
    exact ⟨Verdict.decide_eq_equivalent_iff hstandard, Verdict.decide_eq_notEquivalent_iff _ _,
      Verdict.decide_eq_possiblyDivergent_iff, Verdict.decide_eq_inconclusive_iff hstandard,
      fun findings hperm => Verdict.decide_perm hperm⟩

/-- An oracle that leaves its first question undecided and then gives the same model to all. Of two targets that
never differ, a check of two inputs first finds an undecided query and then a divergence that does not show. -/
theorem undecided_query_rules_out_equivalent_of_wavering_oracle :
    let identity : Routine := .param "x" (.ret 0)
    let c : Checker := { reference := ⟨"left", ["x"], fun args => identity.run args {}, 0, 0⟩,
                         candidate := ⟨"right", ["x"], fun args => identity.run args {}, 1, 0⟩,
                         prior := [{ kind := .inconclusive, stage := .exploration }] }
    let wavering : Oracle Bool :=
      ⟨fun _ asked => pure (if asked then .ok (some ⟨[("x", .ofInt64 7)]⟩) else .error .unknown, true)⟩
    let s : Session Bool := { world := { paths := #[{}, {}] }, oracle := false }
    ∃ fin s', c.check wavering [[⟨"x", 0⟩], [⟨"x", 1⟩]] s = (.ok fin, s') ∧
      s'.outcomes = [.error, .sat, .sat] ∧
      fin.report.findings.map (·.kind) = [.inconclusive, .inconclusive, .possibleDivergence] ∧
      fin.report.counterexample = none ∧ fin.report.verdict = .possiblyDivergent := by
  intro identity c wavering s
  have houtcomes : (c.check wavering [[⟨"x", 0⟩], [⟨"x", 1⟩]] s).2.outcomes = [.error, .sat, .sat] := by
    decide +kernel
  obtain ⟨fin, s', hcheck, hkinds, hnone⟩ : ∃ fin s', c.check wavering [[⟨"x", 0⟩], [⟨"x", 1⟩]] s = (.ok fin, s') ∧
      fin.report.findings.map (·.kind) = [.inconclusive, .inconclusive, .possibleDivergence] ∧
      fin.report.counterexample = none :=
    Engine.exists_of_any (by decide +kernel)
  rw [hcheck] at houtcomes
  have hprior : ∀ f ∈ c.prior, f.kind = .possibleDivergence ∨ f.kind = .inconclusive :=
    List.forall_mem_singleton.mpr (Or.inr rfl)
  obtain ⟨-, -, -, -, -, -, -, -, hdivergent, -⟩ := undecided_query_rules_out_equivalent c wavering _ hprior hcheck
  refine ⟨fin, s', hcheck, houtcomes, hkinds, hnone, hdivergent.mpr ⟨hnone, List.mem_map.mp ?_⟩⟩
  rw [hkinds]
  decide

end Pathwise
