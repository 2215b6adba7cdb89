import Pathwise.Proofs.Exploring

/-! Explorations, one waiting node at a time. A round takes the next waiting node. A node that has been processed
meanwhile is passed over; any other is put to the oracle, and if there is a model the target runs on the inputs that
come of it. A stage is the state between two rounds, together with all that was asked and run before it.

Nothing is assumed of the target or the oracle. `Explorer.explore_ends` says that an exploration goes from stage to
stage until it has a reason to stop, and fails only where a call fails. -/

namespace Pathwise

variable {σ : Type}

/-- One execution of a target. -/
structure Probe where
  inputs : InputMap
  result : RunResult
  trace : Trace

/-- One question about a node, and the execution that its answer led to, if there was one. -/
structure Attempt where
  number : Nat
  node : TreeNode
  answer : Answer
  probe : Option Probe := none

/-- An exploration under way, and what it has done. -/
structure Explorer.Stage (σ : Type) where
  state : Exploration
  session : Session σ
  seed : Probe
  attempts : List Attempt := []

namespace Explorer.Stage

/-- All executions, in order. -/
def probes (g : Stage σ) : List Probe := g.seed :: g.attempts.filterMap (·.probe)

def runs (g : Stage σ) : List (InputMap × Trace) := g.probes.map fun p => (p.inputs, p.trace)

/-- The stage after one more attempt. -/
def attempt (g : Stage σ) (a : Attempt) (x : Exploration) (s : Session σ) : Stage σ :=
  { g with state := x, session := s, attempts := g.attempts ++ [a] }

variable (g : Stage σ) (a : Attempt) (x : Exploration) (s : Session σ)

@[simp] theorem state_attempt : (g.attempt a x s).state = x := rfl

@[simp] theorem session_attempt : (g.attempt a x s).session = s := rfl

@[simp] theorem attempts_attempt : (g.attempt a x s).attempts = g.attempts ++ [a] := rfl

@[simp] theorem probes_attempt : (g.attempt a x s).probes = g.probes ++ a.probe.toList := by
  simp only [probes, attempts_attempt, List.filterMap_append, List.cons_append]
  cases h : a.probe <;> simp [attempt, h]

@[simp] theorem runs_attempt :
    (g.attempt a x s).runs = g.runs ++ (a.probe.map fun p => (p.inputs, p.trace)).toList := by
  simp only [runs, probes_attempt, List.map_append]
  cases a.probe <;> rfl

end Explorer.Stage

/-! ### Asking -/

def Answer.model? : Answer → Option Model
  | .ok m => m
  | .error _ => none

/-- The counters after a question. -/
def ExplorationStats.answered (st : ExplorationStats) : Answer → ExplorationStats
  | .error _ => { st with unknown := st.unknown + 1 }
  | .ok none => { st with infeasible := st.infeasible + 1 }
  | .ok (some _) => st

namespace ExplorationStats

variable (st : ExplorationStats) (a : Answer)

theorem iterations_answered : (st.answered a).iterations = st.iterations := by
  rcases a with err | _ | m <;> rfl

theorem processed_answered : (st.answered a).processed = st.processed := by
  rcases a with err | _ | m <;> rfl

theorem infeasible_answered :
    (st.answered a).infeasible = st.infeasible + [QueryOutcome.ofAnswer a].count .unsat := by
  rcases a with err | _ | m <;> rfl

theorem unknown_answered : (st.answered a).unknown = st.unknown + [QueryOutcome.ofAnswer a].count .error := by
  rcases a with err | _ | m <;> rfl

end ExplorationStats

namespace Explorer

variable {e : Explorer} {o : Oracle σ} {x : Exploration} {s s' : Session σ} {i : Nat} {n : TreeNode} {a : Answer}

theorem solve_of_ask {query : Predicate}
    (h : Engine.ask o .branch (.counterexample n.asserts query) s = (.ok a, s')) :
    solve o x i n query s = (.ok (a.model?.map n.inputs.applyModel,
      { x with tree := x.tree.mark i, stats := x.stats.answered a }), s') := by
  rw [solve, bind_of_ok h]
  rcases a with err | _ | m <;> rfl

/-! ### Rounds -/

/-- The next waiting node is put to the oracle. `a` is the answer, and the rest is what solving the node gives. -/
inductive Solves (o : Oracle σ) (g : Stage σ) (i : Nat) (n : TreeNode) (a : Answer) :
    Option InputMap → Exploration → Session σ → Prop where
  | intro {query : Predicate} {rest : List Nat} {out : Option InputMap} {x : Exploration} {s : Session σ}
      (hwaiting : g.state.waiting = i :: rest) (hnode : g.state.tree.nodes[i]? = some n)
      (hquery : n.predicate? = some query) (hopen : n.processed = false)
      (hask : (Engine.ask o .branch (.counterexample n.asserts query) g.session).1 = .ok a)
      (hsolve : solve o g.state i n query g.session = (.ok (out, x), s)) :
      Solves o g i n a out { x with waiting := rest } s

def CapReached (e : Explorer) (x : Exploration) : Prop := 0 < e.cap ∧ e.cap ≤ x.stats.iterations

/-- What happens to the next waiting node. -/
inductive Round (e : Explorer) (o : Oracle σ) (g : Stage σ) : Stage σ → Prop where
  | skipped {i : Nat} {rest : List Nat} (hcap : ¬e.CapReached g.state) (hwaiting : g.state.waiting = i :: rest)
      (hskip : ∀ n, g.state.tree.nodes[i]? = some n → n.predicate? = none ∨ n.processed = true) :
      Round e o g { g with state := { g.state with waiting := rest } }
  | refused {i : Nat} {n : TreeNode} {a : Answer} {x : Exploration} {s : Session σ} (hcap : ¬e.CapReached g.state)
      (hsolves : Solves o g i n a none x s) :
      Round e o g (g.attempt ⟨i, n, a, none⟩ x s)
  | executed {i : Nat} {n : TreeNode} {a : Answer} {m : InputMap} {x x' : Exploration} {s s' s'' : Session σ}
      {result : RunResult} {trace : Trace} (hcap : ¬e.CapReached g.state) (hsolves : Solves o g i n a (some m) x s)
      (hcall : Engine.call e.target m s = (.ok (result, trace), s'))
      (hexecute : e.execute x (some n) m s = (.ok x', s'')) :
      Round e o g (g.attempt ⟨i, n, a, some ⟨m, result, trace⟩⟩ x' s'')

/-- The stages of an exploration from a session. -/
inductive Reaches (e : Explorer) (o : Oracle σ) (s : Session σ) : Stage σ → Prop where
  | seeded {x : Exploration} {s' s'' : Session σ} {result : RunResult} {trace : Trace}
      (hcall : Engine.call e.target e.initialInputs s = (.ok (result, trace), s'))
      (hexecute : e.execute {} none e.initialInputs s = (.ok x, s'')) :
      Reaches e o s ⟨x, s'', ⟨e.initialInputs, result, trace⟩, []⟩
  | round {g g' : Stage σ} (h : Reaches e o s g) (hround : e.Round o g g') : Reaches e o s g'

variable {g g' : Stage σ} {m : InputMap} {out : Option InputMap}

/-- What solving a node changes: the node is marked, and the answer is counted. -/
theorem Solves.spec (h : Solves o g i n a out x s) : ∃ query rest, g.state.waiting = i :: rest ∧
    g.state.tree.nodes[i]? = some n ∧ n.predicate? = some query ∧ n.processed = false ∧
    Engine.ask o .branch (.counterexample n.asserts query) g.session = (.ok a, s) ∧
    out = a.model?.map n.inputs.applyModel ∧
    x = { g.state with tree := g.state.tree.mark i, waiting := rest, stats := g.state.stats.answered a } := by
  obtain ⟨hwaiting, hnode, hquery, hopen, hask, hsolve⟩ := h
  obtain ⟨a', s', heq, -⟩ := Engine.ask_eq o .branch (.counterexample n.asserts _) g.session
  rw [heq] at hask
  cases hask
  rw [solve_of_ask heq] at hsolve
  cases hsolve
  exact ⟨_, _, hwaiting, hnode, hquery, hopen, heq, rfl, rfl⟩

theorem Solves.node (h : Solves o g i n a out x s) : g.state.tree.nodes[i]? = some n ∧ n.processed = false := by
  obtain ⟨query, rest, -, hn, -, hopen, -⟩ := h.spec
  exact ⟨hn, hopen⟩

theorem Solves.asked (h : Solves o g i n a out x s) : ∃ query, n.predicate? = some query ∧
    Engine.ask o .branch (.counterexample n.asserts query) g.session = (.ok a, s) := by
  obtain ⟨query, rest, -, -, hquery, -, hask, -⟩ := h.spec
  exact ⟨query, hquery, hask⟩

theorem Solves.inputs (h : Solves o g i n a out x s) : out = a.model?.map n.inputs.applyModel := by
  obtain ⟨query, rest, -, -, -, -, -, hout, -⟩ := h.spec
  exact hout

theorem Solves.state (h : Solves o g i n a out x s) : ∃ rest, g.state.waiting = i :: rest ∧
    x = { g.state with tree := g.state.tree.mark i, waiting := rest, stats := g.state.stats.answered a } := by
  obtain ⟨query, rest, hwaiting, -, -, -, -, -, hx⟩ := h.spec
  exact ⟨rest, hwaiting, hx⟩

theorem Solves.iterations (h : Solves o g i n a out x s) :
    x.stats.iterations = g.state.stats.iterations := by
  obtain ⟨rest, -, rfl⟩ := h.state
  exact g.state.stats.iterations_answered a

theorem Solves.model (h : Solves o g i n a (some m) x s) :
    ∃ model, a = .ok (some model) ∧ m = n.inputs.applyModel model := by
  have hout := h.inputs
  rcases a with err | _ | model
  · cases hout
  · cases hout
  · exact ⟨model, rfl, Option.some.inj hout⟩

/-- An execution merges the trace of its call. -/
theorem execute_eq {node : Option TreeNode} {m : InputMap} {x' : Exploration} {s'' : Session σ} {result : RunResult}
    {trace : Trace} (hcall : Engine.call e.target m s = (.ok (result, trace), s'))
    (hexecute : e.execute x node m s = (.ok x', s'')) : x' = e.merged x node m result trace := by
  obtain ⟨_, heq, -⟩ := execute_of_ok e x node hcall
  rw [heq] at hexecute
  cases hexecute
  rfl

/-! ### From stage to stage -/

/-- The reasons to stop. -/
inductive Stops (e : Explorer) (g : Stage σ) : Bool → Prop where
  | cancelled (h : e.cancelled g.session.events = true) : Stops e g true
  | nothingLeft (h : g.state.waiting = []) : Stops e g false
  | limit (h : g.state.stats.iterations = e.budget + 1) : Stops e g false

/-- What seeking comes to: a stage where nothing waits or where the exploration is cancelled, or a stage whose next node
has inputs. -/
inductive Sought (e : Explorer) (o : Oracle σ) (s : Session σ) (iterations : Nat) :
    Selection × Exploration → Session σ → Prop where
  | nothing {g : Stage σ} (hg : e.Reaches o s g) (hwaiting : g.state.waiting = []) :
      Sought e o s iterations (.exhausted, g.state) g.session
  | cancelled {g : Stage σ} (hg : e.Reaches o s g) (hcancelled : e.cancelled g.session.events = true) :
      Sought e o s iterations (.cancelled, g.state) g.session
  | found {g : Stage σ} {i : Nat} {n : TreeNode} {a : Answer} {m : InputMap} {x : Exploration} {s' : Session σ}
      (hg : e.Reaches o s g) (hcap : ¬e.CapReached g.state) (hsolves : Solves o g i n a (some m) x s')
      (hiterations : g.state.stats.iterations = iterations) : Sought e o s iterations (.found n m, x) s'

theorem seek_reaches {s₀ : Session σ} {seed : Probe} (waiting : List Nat) :
    ∀ {x : Exploration} {s : Session σ} {attempts : List Attempt},
      e.Reaches o s₀ ⟨{ x with waiting }, s, seed, attempts⟩ → ¬e.CapReached x →
      ∃ out s', e.seek o waiting x s = (.ok out, s') ∧ e.Sought o s₀ x.stats.iterations out s' := by
  induction waiting with
  | nil => exact fun h _ => ⟨_, _, rfl, .nothing h rfl⟩
  | cons i rest ih =>
      intro x s attempts h hcap
      have hpass : (∀ n, x.tree.nodes[i]? = some n → n.predicate? = none ∨ n.processed = true) →
          ∃ out s', e.seek o rest x s = (.ok out, s') ∧ e.Sought o s₀ x.stats.iterations out s' :=
        fun hskip => ih (h.round (.skipped hcap rfl hskip)) hcap
      rw [seek]
      cases hn : x.tree.nodes[i]? with
      | none => exact hpass (by rw [hn]; rintro _ ⟨⟩)
      | some n =>
          dsimp only
          rw [hn] at hpass
          cases hquery : n.predicate? with
          | none => exact hpass (by rintro _ ⟨⟩; exact Or.inl hquery)
          | some query =>
              cases hopen : n.processed with
              | true => exact hpass (by rintro _ ⟨⟩; exact Or.inr hopen)
              | false =>
                  obtain ⟨a, s', hask, -⟩ := Engine.ask_eq o .branch (.counterexample n.asserts query) s
                  have hsolve := fun y : Exploration => solve_of_ask (x := y) (i := i) hask
                  dsimp only
                  rw [bind_of_ok (hsolve x)]
                  have hsolves := Solves.intro (g := ⟨{ x with waiting := i :: rest }, s, seed, attempts⟩) rfl hn
                    hquery hopen (congrArg Prod.fst hask) (hsolve _)
                  cases hm : a.model? with
                  | none =>
                      rw [hm] at hsolves
                      have hrefused := h.round (.refused hcap hsolves)
                      have hget : (get : Engine σ (Session σ)) s' = (.ok s', s') := rfl
                      dsimp only [Option.map_none]
                      rw [bind_of_ok hget]
                      split_ifs with hcancelled
                      · exact ⟨_, _, rfl, .cancelled hrefused hcancelled⟩
                      · obtain ⟨out, s'', hseek, hsought⟩ := ih hrefused
                          (x := { x with tree := x.tree.mark i, stats := x.stats.answered a })
                          (by rwa [CapReached, ExplorationStats.iterations_answered])
                        rw [ExplorationStats.iterations_answered] at hsought
                        exact ⟨out, s'', hseek, hsought⟩
                  | some model =>
                      rw [hm] at hsolves
                      exact ⟨_, _, rfl, .found h hcap hsolves rfl⟩

/-- The exploration went from stage to stage and had a reason to stop. -/
def EndsAt (e : Explorer) (o : Oracle σ) (s : Session σ) (fin : ExplorationEnd) (s' : Session σ) : Prop :=
  ∃ g, e.Reaches o s g ∧ g.session = s' ∧ ∃ cancelled, fin = e.finish g.state cancelled ∧ e.Stops g cancelled

/-- A call that the exploration makes fails. -/
inductive Breaks (e : Explorer) (o : Oracle σ) (s : Session σ) (err : CallError) : Prop where
  | seed {s' : Session σ} (hcall : Engine.call e.target e.initialInputs s = (.error err, s')) : Breaks e o s err
  | round {g : Stage σ} {i : Nat} {n : TreeNode} {a : Answer} {m : InputMap} {x : Exploration} {s' s'' : Session σ}
      (hg : e.Reaches o s g) (hsolves : Solves o g i n a (some m) x s')
      (hcall : Engine.call e.target m s' = (.error err, s'')) : Breaks e o s err

/-- An execution fails if its call does; otherwise it merges what the call returned. -/
theorem execute_ends (e : Explorer) (x : Exploration) (node : Option TreeNode) (m : InputMap) (s : Session σ) :
    Engine.Ensures (e.execute x node m) s (fun err => ∃ s₁, Engine.call e.target m s = (.error err, s₁))
      fun x' s' => e.execute x node m s = (.ok x', s') ∧
        ∃ result trace s₁, Engine.call e.target m s = (.ok (result, trace), s₁) := by
  rcases hcall : Engine.call e.target m s with ⟨err | ⟨result, trace⟩, s₁⟩
  · exact Engine.ensures_of_error (execute_of_error e x node hcall) ⟨s₁, rfl⟩
  · obtain ⟨s', heq, -⟩ := execute_of_ok e x node hcall
    exact Engine.ensures_of_eq heq ⟨heq, result, trace, s₁, rfl⟩

theorem run_ends {s₀ : Session σ} (budget : Nat) : ∀ {g : Stage σ}, e.Reaches o s₀ g →
    g.state.stats.iterations + budget = e.budget + 1 →
      Engine.Ensures (e.run o budget g.state) g.session (e.Breaks o s₀) (e.EndsAt o s₀) := by
  induction budget with
  | zero => exact fun h hbudget => Engine.ensures_of_eq rfl ⟨_, h, rfl, false, rfl, .limit hbudget⟩
  | succ budget ih =>
      intro g h hbudget
      have hget : (get : Engine σ (Session σ)) g.session = (.ok g.session, g.session) := rfl
      unfold Engine.Ensures
      rw [run, bind_of_ok hget]
      split_ifs with hcancelled
      · exact Engine.ensures_of_eq rfl ⟨_, h, rfl, true, rfl, .cancelled hcancelled⟩
      · have hcap : ¬e.CapReached g.state := by
          rintro ⟨hpos, hle⟩
          rw [Explorer.budget, if_neg hpos.ne'] at hbudget
          omega
        obtain ⟨out, s', hseek, hsought⟩ := seek_reaches g.state.waiting (x := g.state) h hcap
        rw [bind_of_ok hseek]
        cases hsought with
        | cancelled hg hcancelled => exact Engine.ensures_of_eq rfl ⟨_, hg, rfl, true, rfl, .cancelled hcancelled⟩
        | nothing hg hwaiting =>
            exact Engine.ensures_of_eq rfl ⟨_, hg, rfl, false, rfl, .nothingLeft hwaiting⟩
        | @found g₁ i n a m x s' hg hcap hsolves hiterations =>
            have hends := execute_ends e x (some n) m s'
            refine Engine.Ensures.bind ⟨?_, hends.2⟩ fun x' s'' hended => ?_
            · intro err s'' herr
              obtain ⟨s₁, hcall⟩ := hends.1 err s'' herr
              exact .round hg hsolves hcall
            obtain ⟨hexecute, result, trace, s₁, hcall⟩ := hended
            refine ih (hg.round (.executed hcap hsolves hcall hexecute)) ?_
            have hcount : x'.stats.iterations = x.stats.iterations + 1 := by
              rw [execute_eq hcall hexecute]
              rfl
            rw [Stage.state_attempt, hcount, hsolves.iterations, hiterations]
            omega

theorem explore_ends (e : Explorer) (o : Oracle σ) (s : Session σ) :
    Engine.Ensures (e.explore o) s (e.Breaks o s) (e.EndsAt o s) := by
  have hends := execute_ends e {} none e.initialInputs s
  refine Engine.Ensures.bind ⟨?_, hends.2⟩ fun x s' hended => ?_
  · intro err s' herr
    obtain ⟨s₁, hcall⟩ := hends.1 err s' herr
    exact .seed hcall
  obtain ⟨hexecute, result, trace, s₁, hcall⟩ := hended
  refine run_ends e.budget (.seeded hcall hexecute) ?_
  rw [execute_eq hcall hexecute]
  exact Nat.add_comm 1 e.budget

end Explorer
end Pathwise
