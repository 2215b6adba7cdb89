import Pathwise.Proofs.Rounds

/-! The books of an exploration. Whatever the target and the oracle do, the counters and lists of an exploration say
how many executions and questions there were and how they ended, and the nodes that are not processed are among those
that wait, each of which waits once. So no node is asked about twice, and never both a node and its sibling: a node
that is asked about is not processed, and either of two siblings is processed once both are there. -/

namespace Pathwise

open PredicateKey

variable {σ : Type}

/-! ### Counters -/

def Attempt.outcome (a : Attempt) : QueryOutcome := .ofAnswer a.answer

theorem QueryOutcome.length_eq_counts (l : List QueryOutcome) :
    l.length = l.count .sat + l.count .unsat + l.count .error := by
  induction l with
  | nil => rfl
  | cons x l ih =>
      rw [List.length_cons, ih]
      cases x <;> simp <;> omega

namespace Explorer

variable {e : Explorer} {o : Oracle σ} {g g' : Stage σ} {x : Exploration} {s s' s'' : Session σ} {m : InputMap}

theorem outcomes_execute {x' : Exploration} {node : Option TreeNode} {result : RunResult} {trace : Trace}
    (hcall : Engine.call e.target m s = (.ok (result, trace), s'))
    (hexecute : e.execute x node m s = (.ok x', s'')) : s''.outcomes = s.outcomes := by
  obtain ⟨s₁, heq, -, -, -, hout⟩ := execute_of_ok e x node hcall
  rw [heq] at hexecute
  cases hexecute
  have hevents : s'.events = s.events := congrArg (fun out => out.2.events) hcall.symm
  rw [hout, Session.outcomes, hevents]
  rfl

namespace Stage

def outcomes (g : Stage σ) : List QueryOutcome := g.attempts.map Attempt.outcome

@[simp] theorem outcomes_attempt (g : Stage σ) (a : Attempt) (x : Exploration) (s : Session σ) :
    (g.attempt a x s).outcomes = g.outcomes ++ [a.outcome] :=
  List.map_append

end Stage

/-- The counters and lists say what was asked and run. -/
structure Counted (s : Session σ) (g : Stage σ) : Prop where
  inputs : g.state.inputs = g.probes.map (·.inputs.assignments)
  returns : g.state.returns = g.probes.map fun p => .ofResult p.result
  iterations : g.state.stats.iterations = g.probes.length
  probes : g.probes.length = g.outcomes.count .sat + 1
  processed : g.state.stats.processed = g.outcomes.count .sat
  infeasible : g.state.stats.infeasible = g.outcomes.count .unsat
  unknown : g.state.stats.unknown = g.outcomes.count .error
  asked : g.session.outcomes = s.outcomes ++ g.outcomes

theorem Counted.round (h : Counted s g) (hround : e.Round o g g') : Counted s g' := by
  cases hround with
  | skipped hcap hwaiting hskip => exact { h with }
  | @refused i n a x s' hcap hsolves =>
      obtain ⟨query, -, hask⟩ := hsolves.asked
      have hout := hsolves.inputs
      obtain ⟨rest, -, rfl⟩ := hsolves.state
      have hnone : [QueryOutcome.ofAnswer a].count .sat = 0 := by
        rcases a with err | _ | model
        · rfl
        · rfl
        · cases hout
      exact {
        inputs := by simpa using h.inputs
        returns := by simpa using h.returns
        iterations := by simpa [ExplorationStats.iterations_answered] using h.iterations
        probes := by
          rw [Stage.outcomes_attempt, List.count_append, Attempt.outcome, hnone]
          simpa using h.probes
        processed := by
          rw [Stage.outcomes_attempt, List.count_append, Attempt.outcome, hnone, ← h.processed]
          exact g.state.stats.processed_answered a
        infeasible := by
          rw [Stage.outcomes_attempt, List.count_append, ← h.infeasible]
          exact g.state.stats.infeasible_answered a
        unknown := by
          rw [Stage.outcomes_attempt, List.count_append, ← h.unknown]
          exact g.state.stats.unknown_answered a
        asked := by
          rw [Stage.outcomes_attempt, ← List.append_assoc, ← h.asked]
          exact Engine.outcomes_ask hask }
  | @executed i n a m x x' s₁ s₂ s₃ result trace hcap hsolves hcall hexecute =>
      obtain ⟨model, rfl, -⟩ := hsolves.model
      obtain ⟨query, -, hask⟩ := hsolves.asked
      obtain ⟨rest, -, rfl⟩ := hsolves.state
      rw [execute_eq hcall hexecute]
      exact {
        inputs := by simp [merged, h.inputs]
        returns := by simp [merged, h.returns]
        iterations := by simp [merged, ExplorationStats.answered, h.iterations]
        probes := by simp [Attempt.outcome, QueryOutcome.ofAnswer, h.probes]
        processed := by simp [merged, ExplorationStats.answered, Attempt.outcome, QueryOutcome.ofAnswer, h.processed]
        infeasible := by simp [merged, ExplorationStats.answered, Attempt.outcome, QueryOutcome.ofAnswer, h.infeasible]
        unknown := by simp [merged, ExplorationStats.answered, Attempt.outcome, QueryOutcome.ofAnswer, h.unknown]
        asked := by
          rw [Stage.outcomes_attempt, ← List.append_assoc, ← h.asked]
          exact (outcomes_execute hcall hexecute).trans (Engine.outcomes_ask hask) }

theorem Reaches.counted (h : e.Reaches o s g) : Counted s g := by
  induction h with
  | seeded hcall hexecute =>
      have hasked := outcomes_execute hcall hexecute
      rw [execute_eq hcall hexecute]
      constructor <;> simp [merged, Stage.probes, Stage.outcomes, hasked]
  | round h hround ih => exact ih.round hround

/-! ### Nodes -/

/-- The tree holds what the runs recorded, and what waits and was attempted accounts for its nodes. -/
structure Filed (x : Exploration) (runs : List (InputMap × Trace)) (attempts : List Attempt) : Prop where
  tree : x.tree.Merges (SeenIn runs) fun q => ∃ a ∈ attempts, a.node.path = q
  nodup : x.waiting.Nodup
  bounded : ∀ i ∈ x.waiting, i < x.tree.size
  pending : ∀ i, Exploration.isPending x.tree i = true → i ∈ x.waiting
  attempted : ∀ a ∈ attempts, ∃ n, x.tree.nodes[a.number]? = some n ∧ n.path = a.node.path ∧
    n.inputs = a.node.inputs ∧ n.processed = true
  once : (attempts.map (·.number)).Nodup
  apart : ∀ a ∈ attempts, ∀ a' ∈ attempts, a'.node.keys ≠ opposite a.node.keys

theorem isPending_iff {t : ConstraintTree} {i : Nat} :
    Exploration.isPending t i = true ↔ ∃ n, t.nodes[i]? = some n ∧ n.processed = false := by
  unfold Exploration.isPending
  cases t.nodes[i]? <;> simp

variable {runs : List (InputMap × Trace)} {attempts : List Attempt} {i : Nat} {rest : List Nat} {n : TreeNode}

theorem filed_empty : Filed {} [] [] where
  tree := (ConstraintTree.merges_empty _).congr fun q m => ⟨False.elim, nofun⟩
  nodup := .nil
  bounded := nofun
  pending i hi := by cases hi
  attempted := nofun
  once := .nil
  apart := nofun

/-- The node of an attempt is still there. -/
theorem Filed.has (h : Filed x runs attempts) {a : Attempt} (ha : a ∈ attempts) : x.tree.Has a.node.keys := by
  obtain ⟨n, hn, hpath, -⟩ := h.attempted a ha
  exact ⟨n, Array.mem_of_getElem? hn, congrArg Trace.keys hpath⟩

theorem Filed.predicate (h : Filed x runs attempts) (hn : x.tree.nodes[i]? = some n) :
    ∃ query, n.predicate? = some query :=
  ⟨_, List.getLast?_eq_some_getLast (h.tree.origin n (Array.mem_of_getElem? hn)).1⟩

theorem Filed.skip (h : Filed x runs attempts) (hwaiting : x.waiting = i :: rest)
    (hskip : ∀ n, x.tree.nodes[i]? = some n → n.predicate? = none ∨ n.processed = true) :
    Filed { x with waiting := rest } runs attempts :=
  { h with
    nodup := (hwaiting ▸ h.nodup).of_cons
    bounded := fun j hj => h.bounded j (hwaiting ▸ List.mem_cons_of_mem i hj)
    pending := fun j hj => by
      rcases List.mem_cons.mp (hwaiting ▸ h.pending j hj) with rfl | hmem
      · -- Every node has a predicate, so this one was passed over because it is processed.
        obtain ⟨n, hn, hopen⟩ := isPending_iff.mp hj
        obtain ⟨query, hquery⟩ := h.predicate hn
        rcases hskip n hn with hnone | hdone
        · rw [hnone] at hquery
          cases hquery
        · rw [hdone] at hopen
          cases hopen
      · exact hmem }

/-- A node that is attempted was not attempted before, nor was its opposite: it would be processed. -/
theorem Filed.attempt (h : Filed x runs attempts) (hwaiting : x.waiting = i :: rest)
    (hn : x.tree.nodes[i]? = some n) (hopen : n.processed = false) (stats : ExplorationStats) (a : Answer)
    (probe : Option Probe) :
    Filed { x with tree := x.tree.mark i, waiting := rest, stats } runs (attempts ++ [⟨i, n, a, probe⟩]) := by
  have hmem : n ∈ x.tree.nodes := Array.mem_of_getElem? hn
  have hnil : n.path ≠ [] := (h.tree.origin n hmem).1
  have hlone : ¬x.tree.Has (opposite n.keys) := by
    intro hhas
    rw [h.tree.paired n hmem hhas] at hopen
    cases hopen
  have hfresh : ∀ a' ∈ attempts, a'.node.keys ≠ opposite n.keys ∧ n.keys ≠ opposite a'.node.keys := by
    intro a' ha'
    have hne : a'.node.keys ≠ opposite n.keys := fun heq => hlone (heq ▸ h.has ha')
    exact ⟨hne, fun heq => hne (eq_opposite heq.symm)⟩
  constructor
  case tree =>
      refine h.tree.mark hn ⟨_, List.mem_append_right _ (List.mem_singleton_self _), rfl⟩ ?_
      rintro q ⟨a', ha', hq⟩
      exact ⟨a', List.mem_append_left _ ha', hq⟩
  case nodup => exact (hwaiting ▸ h.nodup).of_cons
  case bounded =>
      intro j hj
      rw [ConstraintTree.size_mark]
      exact h.bounded j (hwaiting ▸ List.mem_cons_of_mem i hj)
  case pending =>
      intro j hj
      rcases List.mem_cons.mp (hwaiting ▸ h.pending j (ConstraintTree.isPending_of_mark hj)) with rfl | hmem
      · rw [Exploration.isPending, ConstraintTree.getElem?_mark hn, if_pos rfl] at hj
        cases hj
      · exact hmem
  case attempted =>
      refine List.forall_mem_append.mpr ⟨fun a' ha' => ?_, List.forall_mem_singleton.mpr ?_⟩
      · obtain ⟨n₀, hn₀, hpath, hinputs, hproc⟩ := h.attempted a' ha'
        obtain ⟨n₁, hn₁, hpath₁, hinputs₁, hproc₁⟩ := x.tree.keeps_mark i _ n₀ hn₀
        exact ⟨n₁, hn₁, hpath₁.trans hpath, hinputs₁.trans hinputs, hproc₁ hproc⟩
      · exact ⟨{ n with processed := true }, by rw [ConstraintTree.getElem?_mark hn, if_pos rfl], rfl, rfl, rfl⟩
  case once =>
      rw [List.map_append, List.map_singleton]
      refine List.nodup_append.mpr ⟨h.once, List.nodup_singleton _, ?_⟩
      rintro j hj _ hj' rfl
      obtain ⟨a', ha', rfl⟩ := List.mem_map.mp hj
      obtain ⟨n₀, hn₀, -, -, hproc⟩ := h.attempted a' ha'
      rw [List.mem_singleton.mp hj', hn] at hn₀
      cases hn₀
      rw [hproc] at hopen
      cases hopen
  case apart =>
      refine List.forall_mem_append.mpr ⟨fun a' ha' => ?_, List.forall_mem_singleton.mpr ?_⟩
      · exact List.forall_mem_append.mpr ⟨h.apart a' ha', List.forall_mem_singleton.mpr (hfresh a' ha').2⟩
      · refine List.forall_mem_append.mpr ⟨fun a' ha' => (hfresh a' ha').1, List.forall_mem_singleton.mpr ?_⟩
        exact (opposite_ne (Trace.keys_eq_nil.not.mpr hnil)).symm

/-- The nodes of a further run are new, so none of them waits already. -/
theorem Filed.merge (h : Filed x runs attempts) (e : Explorer) (node : Option TreeNode) (m : InputMap)
    (result : RunResult) (t : Trace) : Filed (e.merged x node m result t) (runs ++ [(m, t)]) attempts := by
  have hkeeps : x.tree.Keeps (x.tree.insert t m).1 := ConstraintTree.keeps_insertAfter m [] t x.tree
  have hperm := foldl_push_perm e.strategy
    ((x.tree.insert t m).2.filter (Exploration.isPending (x.tree.insert t m).1)) x.waiting
  constructor
  case tree => exact h.tree.insert_run t m
  case nodup =>
      refine hperm.nodup_iff.mpr (List.nodup_append.mpr ⟨h.nodup, List.Nodup.filter _ List.nodup_range', ?_⟩)
      rintro j hj _ hj' rfl
      have hlt := h.bounded j hj
      have hle := (List.mem_range'_1.mp (List.mem_of_mem_filter hj')).1
      omega
  case bounded =>
      intro j hj
      rcases List.mem_append.mp (hperm.mem_iff.mp hj) with hj | hj
      · exact (h.bounded j hj).trans_le hkeeps.size_le
      · obtain ⟨n, hn, -⟩ := isPending_iff.mp (List.mem_filter.mp hj).2
        exact (Array.getElem?_eq_some_iff.mp hn).1
  case pending =>
      intro j hj
      refine hperm.mem_iff.mpr (List.mem_append.mpr ?_)
      exact (ConstraintTree.isPending_insert hj).imp (h.pending j) fun hmem => List.mem_filter.mpr ⟨hmem, hj⟩
  case attempted =>
      intro a ha
      obtain ⟨n, hn, hpath, hinputs, hproc⟩ := h.attempted a ha
      obtain ⟨n', hn', hpath', hinputs', hproc'⟩ := hkeeps _ n hn
      exact ⟨n', hn', hpath'.trans hpath, hinputs'.trans hinputs, hproc' hproc⟩
  case once => exact h.once
  case apart => exact h.apart

theorem Filed.round (h : Filed g.state g.runs g.attempts) (hround : e.Round o g g') :
    Filed g'.state g'.runs g'.attempts := by
  cases hround with
  | skipped hcap hwaiting hskip => exact h.skip hwaiting hskip
  | @refused i n a x s' hcap hsolves =>
      obtain ⟨hn, hopen⟩ := hsolves.node
      obtain ⟨rest, hwaiting, rfl⟩ := hsolves.state
      simpa using h.attempt hwaiting hn hopen (g.state.stats.answered a) a none
  | @executed i n a m x x' s₁ s₂ s₃ result trace hcap hsolves hcall hexecute =>
      obtain ⟨hn, hopen⟩ := hsolves.node
      obtain ⟨rest, hwaiting, rfl⟩ := hsolves.state
      rw [execute_eq hcall hexecute]
      have hattempt := h.attempt hwaiting hn hopen (g.state.stats.answered a) a (some ⟨m, result, trace⟩)
      simpa using hattempt.merge e (some n) m result trace

theorem Reaches.filed (h : e.Reaches o s g) : Filed g.state g.runs g.attempts := by
  induction h with
  | seeded hcall hexecute =>
      rw [execute_eq hcall hexecute]
      exact filed_empty.merge e none e.initialInputs _ _
  | round h hround ih => exact ih.round hround

/-! ### What the result says -/

theorem countP_range_getElem? {α : Type} (l : List α) (p : α → Bool) :
    (List.range l.length).countP (fun i => l[i]?.any p) = l.countP p := by
  have hmap : (List.range l.length).map (l[·]?) = l.map some := by
    apply List.ext_getElem
    · simp
    · intro i hi hi'
      rw [List.length_map, List.length_range] at hi
      simp [hi]
  calc (List.range l.length).countP (fun i => l[i]?.any p)
      = ((List.range l.length).map (l[·]?)).countP (·.any p) := by
        rw [List.countP_map]
        rfl
    _ = (l.map some).countP (·.any p) := by rw [hmap]
    _ = l.countP p := List.countP_map

/-- The pending nodes are the ones that are not processed. -/
theorem Filed.pending_eq (h : Filed x runs attempts) : x.pending = x.tree.nodes.countP (!·.processed) := by
  have hperm : (x.waiting.filter (Exploration.isPending x.tree)).Perm
      ((List.range x.tree.size).filter (Exploration.isPending x.tree)) := by
    refine (List.perm_ext_iff_of_nodup (h.nodup.filter _) (List.nodup_range.filter _)).mpr fun j => ?_
    rw [List.mem_filter, List.mem_filter, List.mem_range]
    exact and_congr_left fun hj => ⟨h.bounded j, fun _ => h.pending j hj⟩
  calc x.pending
      = (x.waiting.filter (Exploration.isPending x.tree)).length := List.countP_eq_length_filter
    _ = ((List.range x.tree.size).filter (Exploration.isPending x.tree)).length := hperm.length_eq
    _ = (List.range x.tree.nodes.toList.length).countP fun i => x.tree.nodes.toList[i]?.any (!·.processed) := by
        rw [← List.countP_eq_length_filter, Array.length_toList]
        simp only [Array.getElem?_toList]
        rfl
    _ = x.tree.nodes.toList.countP (!·.processed) := countP_range_getElem? _ _
    _ = x.tree.nodes.countP (!·.processed) := Array.countP_toList

/-- The sibling of a node that was attempted was not attempted. -/
theorem Filed.sibling_ne (h : Filed x runs attempts) {a a' : Attempt} (ha : a ∈ attempts) (ha' : a' ∈ attempts) :
    x.tree.sibling? a.node ≠ some a'.number := by
  intro hsibling
  obtain ⟨n, hn, hpath, -⟩ := h.attempted a ha
  have hnil : a.node.path ≠ [] := hpath ▸ (h.tree.origin n (Array.mem_of_getElem? hn)).1
  rw [ConstraintTree.sibling?_eq hnil] at hsibling
  obtain ⟨n', hn', hkeys⟩ := ConstraintTree.find?_eq_some hsibling
  obtain ⟨n'', hn'', hpath'', -⟩ := h.attempted a' ha'
  rw [hn'] at hn''
  cases hn''
  exact h.apart a ha a' ha' ((congrArg Trace.keys hpath'').symm.trans hkeys)

/-- A node is processed because it was attempted or because its sibling was seen. -/
theorem Filed.processed_iff (h : Filed x runs attempts) (hn : x.tree.nodes[i]? = some n) :
    n.processed = true ↔ (∃ a ∈ attempts, a.number = i) ∨ ∃ j, x.tree.sibling? n = some j := by
  have hmem : n ∈ x.tree.nodes := Array.mem_of_getElem? hn
  rw [ConstraintTree.sibling?_eq (h.tree.origin n hmem).1]
  constructor
  · intro hproc
    rcases h.tree.reason n hmem hproc with ⟨a, ha, hpath⟩ | hhas
    · obtain ⟨n', hn', hpath', -⟩ := h.attempted a ha
      have hkeys : n'.keys = n.keys := congrArg Trace.keys (hpath'.trans hpath)
      exact Or.inl ⟨a, ha, h.tree.distinct.eq_of_keys hn' hn hkeys⟩
    · refine Or.inr (Option.ne_none_iff_exists'.mp fun hnone => ?_)
      exact ConstraintTree.find?_eq_none.mp hnone hhas
  · rintro (⟨a, ha, rfl⟩ | ⟨j, hj⟩)
    · obtain ⟨n', hn', -, -, hproc⟩ := h.attempted a ha
      rw [hn] at hn'
      cases hn'
      exact hproc
    · obtain ⟨n', hn', hkeys⟩ := ConstraintTree.find?_eq_some hj
      exact h.tree.paired n hmem ⟨n', Array.mem_of_getElem? hn', hkeys⟩

/-- The result gives a true account of what was done up to the stage. -/
structure Balanced (s : Session σ) (g : Stage σ) (r : ExplorationResult) : Prop where
  /-- Every execution is listed with its inputs and with what it returned. -/
  inputs : r.inputs = g.probes.map (·.inputs.assignments)
  returns : r.returns = g.probes.map fun p => .ofResult p.result
  iterations : r.stats.iterations = r.inputs.length ∧ r.inputs.length = r.returns.length ∧
    r.returns.length = r.stats.processed + 1
  /-- The oracle was asked once for each attempt. -/
  asked : g.session.outcomes = s.outcomes ++ g.outcomes
  questions : g.attempts.length = r.stats.processed + r.stats.infeasible + r.stats.unknown
  /-- Attempts are about nodes of the tree, each about another one, and never about siblings. -/
  attempts : ∀ a ∈ g.attempts, ∃ n, g.state.tree.nodes[a.number]? = some n ∧ n.path = a.node.path
  once : (g.attempts.map (·.number)).Nodup
  siblings : ∀ a ∈ g.attempts, ∀ a' ∈ g.attempts, g.state.tree.sibling? a.node ≠ some a'.number
  /-- The tree has one node for every path of decisions that begins a trace. -/
  nodes : ∀ ks, g.state.tree.Has ks ↔ ks ≠ [] ∧ ∃ p ∈ g.probes, ks <+: p.trace.keys
  distinct : g.state.tree.Distinct
  processed : ∀ i n, g.state.tree.nodes[i]? = some n →
    (n.processed = true ↔ (∃ a ∈ g.attempts, a.number = i) ∨ ∃ j, g.state.tree.sibling? n = some j)
  constraints : r.stats.constraints = g.state.tree.nodes.size
  pending : r.stats.pending = g.state.tree.nodes.countP (!·.processed)
  complete : r.complete = true ↔ (∀ n ∈ g.state.tree.nodes, n.processed = true) ∧ r.stats.unknown = 0

theorem Reaches.balanced (h : e.Reaches o s g) (cancelled : Bool) :
    Balanced s g (e.finish g.state cancelled).result := by
  have hcounted := h.counted
  have hfiled := h.filed
  have hlength : g.attempts.length = g.outcomes.length := (List.length_map _).symm
  have hpending := hfiled.pending_eq
  constructor
  case inputs => exact hcounted.inputs
  case returns => exact hcounted.returns
  case iterations =>
      change g.state.stats.iterations = g.state.inputs.length ∧ g.state.inputs.length = g.state.returns.length ∧
        g.state.returns.length = g.state.stats.processed + 1
      rw [hcounted.inputs, hcounted.returns, hcounted.iterations, hcounted.processed, ← hcounted.probes,
        List.length_map, List.length_map]
      exact ⟨rfl, rfl, rfl⟩
  case asked => exact hcounted.asked
  case questions =>
      change _ = g.state.stats.processed + g.state.stats.infeasible + g.state.stats.unknown
      rw [hlength, QueryOutcome.length_eq_counts, hcounted.processed, hcounted.infeasible, hcounted.unknown]
  case attempts =>
      intro a ha
      obtain ⟨n, hn, hpath, -⟩ := hfiled.attempted a ha
      exact ⟨n, hn, hpath⟩
  case once => exact hfiled.once
  case siblings => exact fun a ha a' ha' => hfiled.sibling_ne ha ha'
  case nodes =>
      intro ks
      rw [hfiled.tree.has_iff]
      simp [Stage.runs]
  case distinct => exact hfiled.tree.distinct
  case processed => exact fun i n hn => hfiled.processed_iff hn
  case constraints => rfl
  case pending => exact hpending
  case complete =>
      change decide (g.state.pending = 0 ∧ g.state.stats.unknown = 0) = true ↔ _ ∧ g.state.stats.unknown = 0
      rw [decide_eq_true_iff, hpending, Array.countP_eq_zero]
      simp

end Explorer

/-- The books of an exploration balance, wherever it is stopped: at the end of an exploration that returns, and at
every stage that an exploration reaches. -/
theorem exploration_books_balance (e : Explorer) (o : Oracle σ) (s : Session σ) :
    (∀ fin s', e.explore o s = (.ok fin, s') →
      ∃ g, e.Reaches o s g ∧ g.session = s' ∧ Explorer.Balanced s g fin.result) ∧
    ∀ g, e.Reaches o s g → ∀ cancelled, Explorer.Balanced s g (e.finish g.state cancelled).result := by
  refine ⟨fun fin s' hexplore => ?_, fun g hg cancelled => hg.balanced cancelled⟩
  obtain ⟨g, hg, hsession, cancelled, rfl, -⟩ := (e.explore_ends o s).2 fin s' hexplore
  exact ⟨g, hg, hsession, hg.balanced cancelled⟩

/-- Answers every question with one model. -/
def Oracle.constantly (m : Model) : Oracle Unit where
  ask _ s := pure (.ok (some m), s)

/-- An oracle that always answers -1 leads a target that asks whether its argument is negative, and if not whether it
is below 10, to three executions, one of which takes another path than it was meant to. -/
theorem exploration_books_balance_of_constant_oracle :
    let asking : Routine := .param "x" (.operation (.const 0) (.operation (.const 10) (.operation (.compare .lt 0 1)
      (.operation (.compare .lt 0 2) (.branch 0 (.ret 1) (.branch 1 (.ret 0) (.ret 2)))))))
    let e : Explorer := { target := ⟨"asking", ["x"], fun args => asking.run args {}, 0, 0⟩ }
    let s : Session Unit := { world := { paths := #[{}] }, oracle := () }
    let o : Oracle Unit := Oracle.constantly ⟨[("x", .ofInt64 (-1))]⟩
    ∃ fin s' g, e.explore o s = (.ok fin, s') ∧
      fin.result.stats = { iterations := 3, processed := 2, divergences := 1, constraints := 3 } ∧
      fin.result.inputs = [[⟨"x", 0⟩], [⟨"x", -1⟩], [⟨"x", -1⟩]] ∧ fin.result.complete = true ∧
      e.Reaches o s g ∧ g.session = s' ∧ Explorer.Balanced s g fin.result := by
  intro asking e s o
  obtain ⟨fin, s', hexplore, hstats, hinputs, hcomplete⟩ : ∃ fin s', e.explore o s = (.ok fin, s') ∧
      fin.result.stats = { iterations := 3, processed := 2, divergences := 1, constraints := 3 } ∧
      fin.result.inputs = [[⟨"x", 0⟩], [⟨"x", -1⟩], [⟨"x", -1⟩]] ∧ fin.result.complete = true :=
    Engine.exists_of_any (by decide +kernel)
  obtain ⟨g, hg, hsession, hbalanced⟩ := (exploration_books_balance e o s).1 fin s' hexplore
  exact ⟨fin, s', g, hexplore, hstats, hinputs, hcomplete, hg, hsession, hbalanced⟩

end Pathwise
