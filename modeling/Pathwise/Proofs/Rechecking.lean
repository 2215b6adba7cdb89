import Pathwise.Proofs.Counterexamples
import Pathwise.Proofs.Rounds

/-! Checks that try an input again. Between two implementations that are deterministic in a class of worlds, a
difference that was confirmed once is found by every check that comes to its input and neither stops nor is cancelled
before, whatever the oracle says about the inputs in front of it (`Checker.Course.finds`). Exploring a target does not
leave the class (`Explorer.Stays.explore`). What a check reports is found on one of its inputs and has the names of that
input, because models change values only (`Checker.Stages.names`). -/

namespace Pathwise

variable {σ : Type} {fit : World → Prop}

/-! ### Explorations -/

namespace Explorer

variable {e : Explorer} {o : Oracle σ} {s s' s'' : Session σ} {g : Stage σ}

/-- Neither calls of the target nor building terms leave the class of worlds. -/
structure Stays (e : Explorer) (fit : World → Prop) : Prop where
  call : ∀ (m : InputMap) (w : World), fit w → fit (e.target.call m w).2
  build : ∀ (w : World) (b : Builder), fit w → fit { w with builder := b }

theorem Stays.execute (h : e.Stays fit) (hs : fit s.world) {x x' : Exploration} {node : Option TreeNode}
    {m : InputMap} {result : RunResult} {trace : Trace}
    (hcall : Engine.call e.target m s = (.ok (result, trace), s'))
    (hexecute : e.execute x node m s = (.ok x', s'')) : fit s''.world := by
  have hs' : fit s'.world := by
    obtain rfl : _ = s' := congrArg Prod.snd hcall
    exact h.call m s.world hs
  obtain ⟨s₁, heq, hworld, -⟩ := execute_of_ok e x node hcall
  obtain rfl : s₁ = s'' := congrArg Prod.snd (heq.symm.trans hexecute)
  rw [hworld]
  split_ifs
  · exact h.build _ _ hs'
  · exact hs'

theorem Stays.solves (h : e.Stays fit) (hg : fit g.session.world) {i : Nat} {n : TreeNode} {a : Answer}
    {out : Option InputMap} {x : Exploration} (hsolves : Solves o g i n a out x s) : fit s.world := by
  obtain ⟨query, -, hask⟩ := hsolves.asked
  obtain ⟨a', s', heq, -, hworld⟩ := Engine.ask_eq o .branch (.counterexample n.asserts query) g.session
  obtain rfl : s = s' := congrArg Prod.snd (hask.symm.trans heq)
  rw [hworld]
  exact h.build _ _ hg

theorem Stays.reaches (h : e.Stays fit) (hs : fit s.world) (hg : e.Reaches o s g) : fit g.session.world := by
  induction hg with
  | seeded hcall hexecute => exact h.execute hs hcall hexecute
  | round _ hround ih =>
      cases hround with
      | skipped => exact ih
      | refused _ hsolves => exact h.solves ih hsolves
      | executed _ hsolves hcall hexecute => exact h.execute (h.solves ih hsolves) hcall hexecute

theorem Stays.explore (h : e.Stays fit) (hs : fit s.world) {fin : ExplorationEnd}
    (hexplore : e.explore o s = (.ok fin, s')) : fit s'.world := by
  obtain ⟨g, hg, rfl, -⟩ := (explore_ends e o s).2 fin s' hexplore
  exact h.reaches hs hg

end Explorer

/-! ### Checks -/

namespace Checker

variable {c : Checker} {o : Oracle σ} {s : Session σ} {x : Counterexample}

/-- A confirmed difference is found where it was confirmed. -/
theorem Confirmed.found (hc : c.Deterministic o fit) (hx : c.Confirmed fit x) (hs : fit s.world) {d : Discovery}
    {s' : Session σ} (h : c.Stages o x.input s (.ok d, s')) : ∃ y, d = .difference y := by
  cases h with
  | different hrun hdiffer => exact ⟨_, rfl⟩
  | deviation hrun hsame hstage =>
      obtain ⟨y, s₁, hreplay, -⟩ := hx.replay hc hs
      rw [Checker.replay, bind_of_ok hrun, if_neg (Bool.eq_false_iff.mp hsame)] at hreplay
      cases hreplay

/-- A check that was not cancelled finds a difference if a confirmed one is among its inputs, whatever the oracle says
about the inputs before it. -/
theorem Course.finds (hc : c.Deterministic o fit) (hstop : c.stopOnFirst = false) (hx : c.Confirmed fit x)
    {inputs : List Assignments} {findings : List Finding} {checked : Nat} {out : Except CallError CheckEnd × Session σ}
    (h : c.Course o inputs findings checked s out) :
    fit s.world → x.input ∈ inputs →
      ∀ fin s', out = (.ok fin, s') → fin.cancelled = false → fin.report.counterexample ≠ none := by
  induction h with
  | done => exact fun _ hmem => absurd hmem List.not_mem_nil
  | cancelled => rintro _ _ _ _ ⟨⟩ ⟨⟩
  | failed => rintro _ _ _ _ ⟨⟩
  | found hone =>
      rintro _ _ _ _ ⟨⟩ -
      exact Option.some_ne_none _
  | stopped hone hstopped => exact absurd (hstop.symm.trans hstopped) Bool.false_ne_true
  -- the input is not the first one: there the difference would have been found
  | nothing hone _ ih | noted hone _ _ ih =>
      intro hs hmem
      rcases List.mem_cons.mp hmem with rfl | hmem
      · obtain ⟨y, hy⟩ := hx.found hc hs hone
        cases hy
      · exact ih (hone.sound hc hs).1 hmem

theorem notEquivalent_of_confirmed (hc : c.Deterministic o fit) (hstop : c.stopOnFirst = false)
    (hx : c.Confirmed fit x) {inputs : List Assignments} (hmem : x.input ∈ inputs) (hs : fit s.world) {fin : CheckEnd}
    {s' : Session σ} (h : c.check o inputs s = (.ok fin, s')) (hfin : fin.cancelled = false) :
    fin.report.verdict = .notEquivalent := by
  obtain ⟨-, hverdict, -⟩ := reported_of_check hc hs h
  obtain ⟨s₁, hcourse, -⟩ := exists_course_of_check h
  exact hverdict.mpr (hcourse.finds hc hstop hx hs hmem fin s₁ rfl hfin)

/-! ### Names of counterexamples -/

/-- An input that is found to differ has the given names. -/
def Names (names : List String) (d : Discovery) : Prop :=
  ∀ x, d = .difference x → x.input.map (·.name) = names

end Checker

namespace InputMap

theorem mem_of_mem_foldl_set {is : List Input} {i : Input} : ∀ {m : InputMap}, i ∈ (is.foldl set m).inputs →
    i ∈ m.inputs ∨ i ∈ is := by
  induction is with
  | nil => exact fun h => Or.inl h
  | cons j is ih =>
      intro m h
      rcases ih h with h | h
      · rcases mem_of_mem_replace h with rfl | h
        · exact Or.inr List.mem_cons_self
        · exact Or.inl h
      · exact Or.inr (List.mem_cons_of_mem _ h)

theorem names_inputMap_subset (as : Assignments) : as.inputMap.names ⊆ as.map (·.name) := by
  intro name hname
  obtain ⟨i, hi, rfl⟩ := List.mem_map.mp hname
  rcases mem_of_mem_foldl_set hi with hi | hi
  · cases hi
  · obtain ⟨a, ha, rfl⟩ := List.mem_map.mp hi
    exact List.mem_map.mpr ⟨a, ha, rfl⟩

end InputMap

namespace Checker

variable {c : Checker} {o : Oracle σ} {s s' : Session σ} {run : PairRun} {input : Assignments} {d : Discovery}

theorem names_counterexample {m : InputMap} (hrun : c.runBoth m s = (.ok run, s')) (stage : Stage) :
    Names m.names (.difference (run.counterexample stage)) := by
  rintro _ ⟨⟩
  rw [← inputs_of_runBoth hrun]
  exact run.inputs.names_assignments

theorem DivergenceStage.names (h : c.DivergenceStage o run s (.ok d, s')) : Names run.inputs.names d := by
  cases h with
  | undecided | refused | unconfirmed => rintro _ ⟨⟩
  | confirmed _ hrun _ =>
      rw [← run.inputs.names_applyModel]
      exact names_counterexample hrun _

theorem DeviationStage.names (h : c.DeviationStage o input run s (.ok d, s')) : Names run.inputs.names d := by
  cases h with
  | undecided | refused | panicked => rintro _ ⟨⟩
  | confirmed _ hrun _ =>
      rw [← run.inputs.names_applyModel]
      exact names_counterexample hrun _
  | divergence _ hrun _ _ hstage =>
      rw [← run.inputs.names_applyModel, ← inputs_of_runBoth hrun]
      exact hstage.names

theorem Stages.names (h : c.Stages o input s (.ok d, s')) : Names input.inputMap.names d := by
  cases h with
  | different hrun _ => exact names_counterexample hrun _
  | deviation hrun _ hstage =>
      rw [← inputs_of_runBoth hrun]
      exact hstage.names

theorem Course.names {inputs : List Assignments} {findings : List Finding} {checked : Nat}
    {out : Except CallError CheckEnd × Session σ} (h : c.Course o inputs findings checked s out) :
    ∀ fin s', out = (.ok fin, s') → ∀ x, fin.report.counterexample = some x →
      ∃ input ∈ inputs, x.input.map (·.name) = input.inputMap.names := by
  induction h with
  | done | cancelled | stopped => rintro _ _ ⟨⟩ _ ⟨⟩
  | failed => rintro _ _ ⟨⟩
  | found hone =>
      rintro _ _ ⟨⟩ _ ⟨⟩
      exact ⟨_, List.mem_cons_self, hone.names _ rfl⟩
  | nothing _ _ ih | noted _ _ _ ih =>
      intro fin s' hout x hx
      obtain ⟨input, hmem, hnames⟩ := ih fin s' hout x hx
      exact ⟨input, List.mem_cons_of_mem _ hmem, hnames⟩

/-- The names of a counterexample are those of an input that was checked. -/
theorem names_of_check {inputs : List Assignments} {fin : CheckEnd} (h : c.check o inputs s = (.ok fin, s'))
    {x : Counterexample} (hx : fin.report.counterexample = some x) :
    ∃ input ∈ inputs, x.input.map (·.name) = input.inputMap.names := by
  obtain ⟨s₁, hcourse, -⟩ := exists_course_of_check h
  exact hcourse.names fin s₁ rfl x hx

end Checker

end Pathwise
