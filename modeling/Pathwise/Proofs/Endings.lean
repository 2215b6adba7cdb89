import Pathwise.Proofs.Counterexamples
import Pathwise.Proofs.PairRuns

/-! How a target ends and what is compared of it. A target ends by returning a number or by panicking with a text.
The report of a call keeps a panic by its text only, so a panic without a text reads as the return of 0. That is
the only confusion: two runs count as equal if and only if they ended alike or one of them panicked without a text
where the other returned 0. -/

namespace Pathwise

variable {σ : Type}

/-! ### Endings -/

/-- How a target ends by itself. -/
inductive Ending where
  | returned (value : Int64)
  | panicked (text : String)
deriving DecidableEq

namespace Ending

variable {e e' : Ending}

/-- The ending of a body, unless the run was broken off. -/
def of? : Except Stop SymInt → Option Ending
  | .ok x => some (.returned x.value)
  | .error (.panic text) => some (.panicked text)
  | .error .inactivePath => none
  | .error (.unknownParameter _) => none

/-- The ending that a report tells of. -/
def reported : Ending → Ending
  | .returned v => .returned v
  | .panicked text => if text = "" then .returned 0 else .panicked text

def text : Ending → String
  | .returned v => toString v.toInt
  | .panicked text => "panic: " ++ text

theorem text_injective : Function.Injective text := by
  intro e e' h
  cases e with
  | returned v =>
      cases e' with
      | returned v' =>
          have hrepr : v.toInt.repr = v'.toInt.repr := h
          rw [Int64.toInt_inj.mp (Int.repr_inj.mp hrepr)]
      | panicked text => exact absurd h.symm (panic_text_ne_toString text v.toInt)
  | panicked text =>
      cases e' with
      | returned v => exact absurd h (panic_text_ne_toString text v.toInt)
      | panicked text' => rw [(String.append_right_inj "panic: ").mp h]

/-- Reports confuse a panic without a text with the return of 0, and nothing else. -/
theorem reported_eq_iff : e.reported = e'.reported ↔
    e = e' ∨ e = .panicked "" ∧ e' = .returned 0 ∨ e = .returned 0 ∧ e' = .panicked "" := by
  cases e with
  | returned v =>
      cases e' with
      | returned v' => simp [reported]
      | panicked text' => by_cases htext' : text' = "" <;> simp [reported, htext']
  | panicked text =>
      cases e' with
      | returned v' => by_cases htext : text = "" <;> simp [reported, htext, eq_comm]
      | panicked text' =>
          by_cases htext : text = "" <;> by_cases htext' : text' = "" <;> simp [reported, htext, htext', eq_comm]

end Ending

/-! ### Calls -/

/-- How the target of an invocation ends on inputs, where it comes to run and is not broken off. -/
def Invocation.ending? (inv : Invocation) (m : InputMap) (w : World) : Option Ending :=
  match bindArgs inv.path m inv.params [] w with
  | (.error _, _) => none
  | (.ok args, w) =>
    match (w.path inv.path).begin? with
    | none => none
    | some path => Ending.of? ((inv.body args).run (w.setPath inv.path path)).1

/-- The result tells of the ending: it is compared by the text of what is reported, and counts as a panic if that
is one. -/
structure RunResult.Tells (r : RunResult) (e : Ending) : Prop where
  outcome : r.outcome = e.reported.text
  panicked : r.panicked = true ↔ ∃ text, text ≠ "" ∧ e = .panicked text

theorem RunResult.Tells.outcome_eq_iff {r r' : RunResult} {e e' : Ending} (h : r.Tells e) (h' : r'.Tells e') :
    r.outcome = r'.outcome ↔
      e = e' ∨ e = .panicked "" ∧ e' = .returned 0 ∨ e = .returned 0 ∧ e' = .panicked "" := by
  rw [h.outcome, h'.outcome, Ending.text_injective.eq_iff, Ending.reported_eq_iff]

namespace Invocation

variable {inv : Invocation} {m : InputMap} {w w' : World} {r : RunResult} {t : Trace}

theorem tells_of_resultOf {name : String} {out : Except Stop SymInt} (h : resultOf name out = .ok r) :
    ∃ e, Ending.of? out = some e ∧ r.Tells e := by
  rcases out with stop | x
  · cases stop with
    | panic text =>
        cases h
        refine ⟨.panicked text, rfl, ?_, ?_⟩
        · unfold RunResult.outcome RunResult.panicked Ending.reported
          by_cases htext : text = ""
          · subst htext
            rfl
          · simp [htext, Ending.text]
        · simp [RunResult.panicked]
    | inactivePath => cases h
    | unknownParameter p => cases h
  · cases h
    exact ⟨.returned x.value, rfl, rfl, by simp [RunResult.panicked]⟩

/-- A call that succeeds tells how the target ended. -/
theorem tells_of_call (h : inv.call m w = (.ok (r, t), w')) : ∃ e, inv.ending? m w = some e ∧ r.Tells e := by
  unfold call at h
  unfold ending?
  rcases hbind : bindArgs inv.path m inv.params [] w with ⟨err | args, w₁⟩
  · rw [hbind] at h
    cases h
  · rw [hbind] at h
    dsimp only at h ⊢
    cases hbegin : (w₁.path inv.path).begin? with
    | none =>
        rw [hbegin] at h
        cases h
    | some path =>
        rw [hbegin] at h
        dsimp only at h ⊢
        rcases hrun : (inv.body args).run (w₁.setPath inv.path path) with ⟨out, w₂⟩
        rw [hrun] at h
        dsimp only at h ⊢
        cases hresult : resultOf inv.name out with
        | error err =>
            rw [hresult] at h
            cases h
        | ok r' =>
            rw [hresult] at h
            cases h
            exact tells_of_resultOf hresult

end Invocation

/-- Both runs of a pair, when both calls succeed. -/
theorem Checker.runBoth_of_ok {c : Checker} {m : InputMap} {s : Session σ} {r r' : RunResult} {t t' : Trace}
    {w w' : World} (href : c.reference.call m s.world = (.ok (r, t), w))
    (hcand : c.candidate.call m (w.build t.formula).2 = (.ok (r', t'), w')) :
    ∃ run s', c.runBoth m s = (.ok run, s') ∧ run.inputs = m ∧ run.reference = r ∧ run.candidate = r' :=
  ⟨_, _, (bind_of_ok (runOne_eq href)).trans ((bind_of_ok (runOne_eq hcand)).trans rfl), rfl, rfl, rfl⟩

/-- Two runs differ unless the targets ended alike, that is returned the same number or panicked with the same
text, or one panicked without a text and the other returned 0. A run counts as a panic if and only if the target
panicked with a text. -/
theorem differ_iff_of_endings (c : Checker) (m : InputMap) (s : Session σ) {r r' : RunResult} {t t' : Trace}
    {w w' : World} (href : c.reference.call m s.world = (.ok (r, t), w))
    (hcand : c.candidate.call m (w.build t.formula).2 = (.ok (r', t'), w')) :
    ∃ run s' e e', c.runBoth m s = (.ok run, s') ∧ run.reference = r ∧ run.candidate = r' ∧
      c.reference.ending? m s.world = some e ∧ c.candidate.ending? m (w.build t.formula).2 = some e' ∧
      (run.differ = false ↔
        e = e' ∨ e = .panicked "" ∧ e' = .returned 0 ∨ e = .returned 0 ∧ e' = .panicked "") ∧
      (r.panicked = true ↔ ∃ text, text ≠ "" ∧ e = .panicked text) ∧
      (r'.panicked = true ↔ ∃ text, text ≠ "" ∧ e' = .panicked text) := by
  obtain ⟨run, s', hrun, -, hr, hr'⟩ := Checker.runBoth_of_ok href hcand
  obtain ⟨e, he, htells⟩ := Invocation.tells_of_call href
  obtain ⟨e', he', htells'⟩ := Invocation.tells_of_call hcand
  refine ⟨run, s', e, e', hrun, hr, hr', he, he', ?_, htells.panicked, htells'.panicked⟩
  rw [← htells.outcome_eq_iff htells', ← hr, ← hr']
  unfold PairRun.differ
  rw [decide_eq_false_iff_not, not_not]

/-- A target that panics with a text where another one returns. -/
theorem differ_iff_of_endings_of_overflow :
    let identity : Routine := .param "x" (.ret 0)
    let strict : Routine := .param "x" (.panic "overflow")
    let c : Checker := { reference := ⟨"identity", ["x"], fun args => identity.run args {}, 0, 0⟩,
                         candidate := ⟨"strict", ["x"], fun args => strict.run args {}, 1, 0⟩ }
    let s : Session Unit := { world := { paths := #[{}, {}] }, oracle := () }
    let m := Assignments.inputMap [⟨"x", Int64.maxValue⟩]
    ∃ run s', c.runBoth m s = (.ok run, s') ∧ run.differ = true ∧ run.reference.panicked = false ∧
      run.candidate.panicked = true ∧ c.reference.ending? m s.world = some (.returned Int64.maxValue) := by
  intro identity strict c s m
  obtain ⟨run, s', e, e', hrun, hr, hr', he, he', hdiffer, hpanicked, hpanicked'⟩ :=
    differ_iff_of_endings c m s rfl rfl
  obtain rfl : .returned Int64.maxValue = e := Option.some.inj he
  obtain rfl : .panicked "overflow" = e' := Option.some.inj he'
  refine ⟨run, s', hrun, ?_, ?_, ?_, he⟩
  · rw [← Bool.not_eq_false, hdiffer]
    decide
  · rw [← Bool.not_eq_true, hr, hpanicked]
    simp
  · rw [hr', hpanicked']
    exact ⟨"overflow", by decide, rfl⟩

/-- A target that panics without a text is found to be equivalent to one that returns 0. -/
theorem panic_without_text_is_zero :
    let zero : Routine := .operation (.const 0) (.ret 0)
    let crash : Routine := .panic ""
    let c : Checker := { reference := ⟨"zero", ["x"], fun args => zero.run args {}, 0, 0⟩,
                         candidate := ⟨"crash", ["x"], fun args => crash.run args {}, 1, 0⟩ }
    let s : Session Unit := { world := { paths := #[{}, {}] }, oracle := () }
    let o : Oracle Unit := ⟨fun _ s => pure (.ok none, s)⟩
    let m := Assignments.inputMap [⟨"x", 0⟩]
    c.reference.ending? m s.world = some (.returned 0) ∧
      c.candidate.ending? m (Checker.runOne c.reference m s).2.world = some (.panicked "") ∧
      (∃ run s', c.runBoth m s = (.ok run, s') ∧ run.candidate.panicked = false ∧ run.differ = false) ∧
      ∃ fin s', c.check o [[⟨"x", 0⟩]] s = (.ok fin, s') ∧ fin.report.verdict = .equivalent := by
  intro zero crash c s o m
  exact ⟨rfl, rfl, Engine.exists_of_any (by decide +kernel), Engine.exists_of_any (by decide +kernel)⟩

end Pathwise
