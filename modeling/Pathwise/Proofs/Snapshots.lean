import Mathlib.Logic.Relation
import Pathwise.Proofs.Bookkeeping

/-! The inputs that a node holds are those of the execution that created it, the first one through the node, and
they stay. A run of a routine satisfies what it records, so a node's inputs satisfy the node's path, even if the target
is another routine in each run; and whatever the oracle answers, the execution that follows runs on the inputs of the
node that was asked about, with the values of the answer's model in them. -/

namespace Pathwise

open Builder PredicateKey

variable {σ : Type}

/-! ### New nodes -/

namespace ConstraintTree

variable {t t' : ConstraintTree} {i : Nat} {n : TreeNode} {path : Trace} {inputs : InputMap} {ks : List PredicateKey}

theorem Keeps.has (h : t.Keeps t') (hhas : t.Has ks) : t'.Has ks := by
  obtain ⟨n, hn, rfl⟩ := hhas
  obtain ⟨i, hi⟩ := Array.mem_iff_getElem?.mp hn
  obtain ⟨n', hn', hpath, -⟩ := h i n hi
  exact ⟨n', Array.mem_of_getElem? hn', congrArg Trace.keys hpath⟩

/-- A node of the larger tree that was there before. -/
theorem Keeps.back (h : t.Keeps t') (hi : i < t.size) (hn : t'.nodes[i]? = some n) :
    ∃ n₀, t.nodes[i]? = some n₀ ∧ n.path = n₀.path ∧ n.inputs = n₀.inputs := by
  have hn₀ := Array.getElem?_eq_getElem hi
  obtain ⟨n', hn', hpath, hinputs, -⟩ := h i _ hn₀
  rw [hn] at hn'
  cases hn'
  exact ⟨_, hn₀, hpath, hinputs⟩

theorem observe_of_new (h : ¬t.Has path.keys) (inputs : InputMap) :
    (t.grow path inputs).Keeps (t.observe path inputs) ∧ (t.observe path inputs).size = t.size + 1 := by
  have hsize : (t.grow path inputs).size = t.size + 1 := Array.size_push _
  rw [observe, find?_eq_none.mpr h]
  dsimp only
  split
  · refine ⟨(keeps_mark _ _).trans (keeps_mark _ _), ?_⟩
    rw [size_mark, size_mark]
    exact hsize
  · exact ⟨keeps_refl _, hsize⟩

theorem created_observe (hi : t.size ≤ i) (hn : (t.observe path inputs).nodes[i]? = some n) :
    n.path = path ∧ n.inputs = inputs ∧ ¬t.Has path.keys := by
  by_cases hhas : t.Has path.keys
  · rw [observe_of_has hhas, Array.getElem?_eq_none hi] at hn
    cases hn
  · obtain ⟨hkeeps, hsize⟩ := observe_of_new hhas inputs
    have hlt : i < (t.observe path inputs).size := (Array.getElem?_eq_some_iff.mp hn).1
    have hlast : i = t.size := by omega
    subst hlast
    obtain ⟨n', hn', hpath, hinputs, -⟩ := hkeeps t.size { path, inputs } Array.getElem?_push_size
    rw [hn] at hn'
    cases hn'
    exact ⟨hpath, hinputs, hhas⟩

/-- The nodes that a trace adds hold its inputs and lie on it, where there was no node. -/
theorem created_insertAfter (inputs : InputMap) (before ps : Trace) (hi : t.size ≤ i)
    (hn : (insertAfter inputs before ps t).nodes[i]? = some n) :
    n.inputs = inputs ∧ n.path <+: before ++ ps ∧ ¬t.Has n.keys := by
  induction ps generalizing before t with
  | nil =>
      rw [insertAfter, Array.getElem?_eq_none hi] at hn
      cases hn
  | cons p ps ih =>
      rw [insertAfter] at hn
      by_cases hlt : i < (t.observe (before ++ [p]) inputs).size
      · obtain ⟨n₀, hn₀, hpath, hinputs⟩ := (keeps_insertAfter inputs (before ++ [p]) ps _).back hlt hn
        obtain ⟨hpath₀, hinputs₀, hnew⟩ := created_observe hi hn₀
        rw [TreeNode.keys, hpath, hpath₀]
        exact ⟨hinputs.trans hinputs₀, ⟨ps, by simp⟩, hnew⟩
      · obtain ⟨hinputs, hbegins, hnew⟩ := ih (before ++ [p]) (Nat.le_of_not_lt hlt) hn
        rw [List.append_assoc] at hbegins
        exact ⟨hinputs, hbegins, fun hhas => hnew ((keeps_observe t _ inputs).has hhas)⟩

end ConstraintTree

/-! ### Executions and the nodes they create -/

/-- The node was created by one of the executions: it holds its inputs and lies on its trace, and no execution before
came there. -/
def Probe.Created (probes : List Probe) (n : TreeNode) : Prop :=
  ∃ before p after, probes = before ++ p :: after ∧ n.inputs = p.inputs ∧ n.path <+: p.trace ∧
    ∀ p' ∈ before, ¬n.keys <+: p'.trace.keys

theorem Probe.Created.append {probes : List Probe} {n : TreeNode} (h : Created probes n) (more : List Probe) :
    Created (probes ++ more) n := by
  obtain ⟨before, p, after, rfl, hrest⟩ := h
  exact ⟨before, p, after ++ more, by simp, hrest⟩

namespace Explorer

variable {e : Explorer} {o : Oracle σ} {g g' : Stage σ} {s : Session σ} {i : Nat} {n : TreeNode}

/-- No round changes the path or the inputs of a node. -/
theorem Round.keeps (h : e.Round o g g') : g.state.tree.Keeps g'.state.tree := by
  cases h with
  | skipped hcap hwaiting hskip => exact g.state.tree.keeps_refl
  | refused hcap hsolves =>
      obtain ⟨rest, -, rfl⟩ := hsolves.state
      exact g.state.tree.keeps_mark _
  | executed hcap hsolves hcall hexecute =>
      obtain ⟨rest, -, rfl⟩ := hsolves.state
      rw [execute_eq hcall hexecute]
      exact (g.state.tree.keeps_mark _).trans (ConstraintTree.keeps_insertAfter _ [] _ _)

theorem Round.probes (h : e.Round o g g') : ∃ more, g'.probes = g.probes ++ more := by
  cases h with
  | skipped hcap hwaiting hskip => exact ⟨[], (List.append_nil _).symm⟩
  | refused hcap hsolves => exact ⟨_, g.probes_attempt _ _ _⟩
  | executed hcap hsolves hcall hexecute => exact ⟨_, g.probes_attempt _ _ _⟩

/-- The nodes that are new after a round are on the trace of its execution, with its inputs. -/
theorem Round.created (h : e.Round o g g') (hi : g.state.tree.size ≤ i) (hn : g'.state.tree.nodes[i]? = some n) :
    ∃ p, g'.probes = g.probes ++ [p] ∧ n.inputs = p.inputs ∧ n.path <+: p.trace ∧ ¬g.state.tree.Has n.keys := by
  cases h with
  | skipped hcap hwaiting hskip =>
      rw [Array.getElem?_eq_none hi] at hn
      cases hn
  | @refused j _ _ _ _ hcap hsolves =>
      obtain ⟨rest, -, rfl⟩ := hsolves.state
      have hsize := g.state.tree.size_mark j
      change (g.state.tree.mark j).nodes[i]? = some n at hn
      rw [Array.getElem?_eq_none (hsize.trans_le hi)] at hn
      cases hn
  | @executed j _ _ m _ _ _ _ _ result trace hcap hsolves hcall hexecute =>
      obtain ⟨rest, -, rfl⟩ := hsolves.state
      rw [execute_eq hcall hexecute] at hn
      have hsize := g.state.tree.size_mark j
      obtain ⟨hinputs, hbegins, hnew⟩ := ConstraintTree.created_insertAfter m [] trace (hsize.trans_le hi) hn
      refine ⟨⟨m, result, trace⟩, g.probes_attempt _ _ _, hinputs, hbegins, fun hhas => hnew ?_⟩
      exact (g.state.tree.keeps_mark j).has hhas

theorem Reaches.created (h : e.Reaches o s g) : ∀ n ∈ g.state.tree.nodes, Probe.Created g.probes n := by
  induction h with
  | @seeded x s' s'' result trace hcall hexecute =>
      intro n hn
      rw [execute_eq hcall hexecute] at hn
      obtain ⟨i, hi⟩ := Array.mem_iff_getElem?.mp hn
      obtain ⟨hinputs, hbegins, -⟩ := ConstraintTree.created_insertAfter e.initialInputs [] trace (Nat.zero_le i) hi
      exact ⟨[], _, [], rfl, hinputs, hbegins, nofun⟩
  | @round g g' h hround ih =>
      intro n hn
      obtain ⟨i, hi⟩ := Array.mem_iff_getElem?.mp hn
      by_cases hlt : i < g.state.tree.size
      · obtain ⟨n₀, hn₀, hpath, hinputs⟩ := hround.keeps.back hlt hi
        obtain ⟨more, hmore⟩ := hround.probes
        obtain ⟨before, p, after, hsplit, hinputs₀, hbegins, hfirst⟩ :=
          (ih n₀ (Array.mem_of_getElem? hn₀)).append more
        refine ⟨before, p, after, hmore.trans hsplit, hinputs.trans hinputs₀, hpath ▸ hbegins, ?_⟩
        rwa [TreeNode.keys, hpath]
      · obtain ⟨p, hprobes, hinputs, hbegins, hnew⟩ := hround.created (Nat.le_of_not_lt hlt) hi
        refine ⟨g.probes, p, [], hprobes, hinputs, hbegins, fun p' hp' hkeys => hnew ?_⟩
        have hnil := ((h.round hround).filed.tree.origin n hn).1
        exact h.filed.tree.has_iff.mpr ⟨Trace.keys_eq_nil.not.mpr hnil, _, List.mem_map_of_mem hp', hkeys⟩

end Explorer

/-! ### The inputs of an execution -/

/-- There was an execution if the answer has a model, on the inputs of the node with the model applied to them. -/
def Attempt.Applied (a : Attempt) : Prop :=
  a.probe.map (·.inputs) = a.answer.model?.map a.node.inputs.applyModel

namespace Explorer

variable {e : Explorer} {o : Oracle σ} {g g' : Stage σ} {s : Session σ} {i : Nat} {n : TreeNode}

theorem Round.applied (h : e.Round o g g') :
    g'.attempts = g.attempts ∨ ∃ a : Attempt, g'.attempts = g.attempts ++ [a] ∧ a.Applied := by
  cases h with
  | skipped hcap hwaiting hskip => exact Or.inl rfl
  | refused hcap hsolves => exact Or.inr ⟨_, rfl, hsolves.inputs⟩
  | executed hcap hsolves hcall hexecute => exact Or.inr ⟨_, rfl, hsolves.inputs⟩

theorem Reaches.applied (h : e.Reaches o s g) : ∀ a ∈ g.attempts, a.Applied := by
  induction h with
  | seeded hcall hexecute => exact nofun
  | round h hround ih =>
      rcases hround.applied with heq | ⟨a, heq, ha⟩
      · rw [heq]
        exact ih
      · rw [heq]
        exact List.forall_mem_append.mpr ⟨ih, List.forall_mem_singleton.mpr ha⟩

/-- A node holds the inputs of one of the executions that went through it. -/
theorem Filed.probe {x : Exploration} {attempts : List Attempt} (h : Filed x g.runs attempts)
    (hn : n ∈ x.tree.nodes) : ∃ p ∈ g.probes, n.inputs = p.inputs ∧ n.path <+: p.trace := by
  obtain ⟨-, u, hu, hinputs, -, hbegins⟩ := h.tree.origin n hn
  obtain ⟨p, hp, rfl⟩ := List.mem_map.mp hu
  exact ⟨p, hp, hinputs, hbegins⟩

theorem Solves.shape {a : Answer} {m : InputMap} {x : Exploration} {s' : Session σ}
    (h : Solves o g i n a (some m) x s') (hfiled : Filed g.state g.runs g.attempts)
    (hshape : ∀ p ∈ g.probes, p.inputs.shape = e.initialInputs.shape) : m.shape = e.initialInputs.shape := by
  obtain ⟨model, -, rfl⟩ := h.model
  obtain ⟨p, hp, hinputs, -⟩ := hfiled.probe (Array.mem_of_getElem? h.node.1)
  rw [InputMap.shape_applyModel, hinputs, hshape p hp]

/-- Executions differ in the values of symbolic inputs only. -/
theorem Reaches.shape (h : e.Reaches o s g) : ∀ p ∈ g.probes, p.inputs.shape = e.initialInputs.shape := by
  induction h with
  | seeded hcall hexecute => exact List.forall_mem_singleton.mpr rfl
  | round h hround ih =>
      cases hround with
      | skipped hcap hwaiting hskip => exact ih
      | refused hcap hsolves => simpa using ih
      | executed hcap hsolves hcall hexecute =>
          rw [Stage.probes_attempt]
          exact List.forall_mem_append.mpr ⟨ih, List.forall_mem_singleton.mpr (hsolves.shape h.filed ih)⟩

end Explorer

/-! ### Runs of routines -/

namespace Invocation

variable {inv : Invocation} {R : Routine → Prop}

/-- Every run of the target is the run of one of the routines on its arguments. It may be another one each time, and
it may leave anything behind in memory. -/
def Performs (inv : Invocation) (R : Routine → Prop) : Prop :=
  ∀ args w, ∃ r memory, R r ∧ inv.body args w = ((r.run args {} w).1, { (r.run args {} w).2 with memory })

theorem Follows.performs {r : Routine} (h : inv.Follows r) : inv.Performs (· = r) :=
  fun args w => ⟨r, (r.run args {} w).2.memory, rfl, congrFun (h args) w⟩

/-- The invocation with the routine for its target. -/
def following (inv : Invocation) (r : Routine) : Invocation := { inv with body := fun args => r.run args {} }

/-- A call is a call of one of the routines, but for what it leaves in memory. -/
theorem Performs.call (h : inv.Performs R) (m : InputMap) (w : World) : ∃ r memory, R r ∧
    inv.call m w = (((inv.following r).call m w).1, { ((inv.following r).call m w).2 with memory }) := by
  rcases hbind : bindArgs inv.path m inv.params [] w with ⟨err | args, w₁⟩
  · obtain ⟨r, -, hr, -⟩ := h [] w
    refine ⟨r, w₁.memory, hr, ?_⟩
    unfold Invocation.call following
    rw [hbind]
  · cases hbegin : (w₁.path inv.path).begin? with
    | none =>
        obtain ⟨r, -, hr, -⟩ := h args w₁
        refine ⟨r, w₁.memory, hr, ?_⟩
        unfold Invocation.call following
        rw [hbind]
        dsimp only
        rw [hbegin]
    | some path =>
        obtain ⟨r, memory, hr, hbody⟩ := h args (w₁.setPath inv.path path)
        refine ⟨r, memory, hr, ?_⟩
        unfold Invocation.call following
        rw [hbind]
        dsimp only
        rw [hbegin]
        dsimp only
        rw [ExceptT.run, hbody]
        rfl

end Invocation

/-- The oracle does to the builder what building terms does. -/
def Oracle.Builds (o : Oracle σ) : Prop :=
  ∀ (s : σ) (b : Builder) (names : List (String × Nat)) (asserts : Trace) (query : Predicate),
    b.Consistent → asserts.Formed b names → query.Formed b names →
    (o.ask (.counterexample asserts query) s b).2.Consistent ∧ b ≤ (o.ask (.counterexample asserts query) s b).2

namespace Explorer

variable {e : Explorer} {R : Routine → Prop} {o : Oracle σ} {g g' : Stage σ} {s s' : Session σ} {i : Nat} {n : TreeNode}
  {x : Exploration} {a : Answer} {m : InputMap} {out : Option InputMap} {good : σ → Prop}
  {log : List (Assignments × Trace)}

/-- The execution was a run of one of the routines. -/
def Ran (e : Explorer) (R : Routine → Prop) (b : Builder) (p : Probe) : Prop :=
  ∃ r v, R r ∧ e.target.Settled r b p.inputs (v, p.trace) ∧ Invocation.resultOf e.target.name v = .ok p.result

theorem Ran.mono {b c : Builder} {p : Probe} (h : e.Ran R b p) (hb : b.Consistent) (hc : c.Consistent) (hle : b ≤ c) :
    e.Ran R c p := by
  obtain ⟨r, v, hr, hv, hresult⟩ := h
  exact ⟨r, v, hr, hv.mono hb hc hle, hresult⟩

/-- The inputs of an execution satisfy its trace. -/
theorem Ran.trace {b : Builder} {p : Probe} (h : e.Ran R b p) (hb : b.Consistent) :
    p.trace.Formed b p.inputs.symbols ∧ p.trace.HoldsFor p.inputs.valuation := by
  obtain ⟨r, v, -, hv, -⟩ := h
  exact (hv.ends hb).2

/-- The target can be called, and every execution was a run of one of the routines. -/
structure Sound (e : Explorer) (R : Routine → Prop) (g : Stage σ) : Prop where
  ready : g.session.world.Ready e.target.path
  consistent : g.session.world.builder.Consistent
  settled : ∀ p ∈ g.probes, e.Ran R g.session.world.builder p

/-- The inputs of a node satisfy its path. -/
theorem Sound.node (h : e.Sound R g) (hfiled : Filed g.state g.runs g.attempts) (hn : n ∈ g.state.tree.nodes) :
    n.path.Formed g.session.world.builder n.inputs.symbols ∧ n.path.HoldsFor n.inputs.valuation := by
  obtain ⟨p, hp, hinputs, hbegins⟩ := hfiled.probe hn
  obtain ⟨hformed, hholds⟩ := (h.settled p hp).trace h.consistent
  rw [hinputs]
  exact ⟨fun d hd => hformed d (hbegins.subset hd), fun d hd => hholds d (hbegins.subset hd)⟩

/-- A question leaves the session fit. -/
theorem Sound.asked (h : e.Sound R g) (hfiled : Filed g.state g.runs g.attempts) (ho : o.Builds)
    (hsolves : Solves o g i n a out x s) :
    s.Fit e (fun _ => True) s.recorded ∧ g.session.world.builder ≤ s.world.builder := by
  obtain ⟨query, hquery, hask⟩ := hsolves.asked
  obtain ⟨hformed, -⟩ := h.node hfiled (Array.mem_of_getElem? hsolves.node.1)
  have hpath : n.path = n.asserts ++ [query] := (List.dropLast_append_getLast? query hquery).symm
  rw [hpath] at hformed
  obtain ⟨hasserts, hlast⟩ := List.forall_mem_append.mp hformed
  obtain ⟨hconsistent, hle⟩ := ho g.session.oracle g.session.world.builder n.inputs.symbols n.asserts query
    h.consistent hasserts (List.forall_mem_singleton.mp hlast)
  obtain ⟨a', s', heq, -, hworld⟩ := Engine.ask_eq o .branch (.counterexample n.asserts query) g.session
  rw [heq] at hask
  cases hask
  refine ⟨⟨?_, ?_, trivial, rfl⟩, ?_⟩
  · rw [hworld]
    exact h.ready.of_paths_eq rfl
  · rw [hworld]
    exact hconsistent
  · rw [hworld]
    exact hle

theorem Sound.attempt (h : e.Sound R g) (hs : s.Fit e good log)
    (hle : g.session.world.builder ≤ s.world.builder) (number : Nat) {probe : Option Probe}
    (hprobe : ∀ p ∈ probe, e.Ran R s.world.builder p) :
    e.Sound R (g.attempt ⟨number, n, a, probe⟩ x s) where
  ready := hs.ready
  consistent := hs.consistent
  settled p hp := by
    rw [Stage.probes_attempt, List.mem_append, Option.mem_toList] at hp
    rcases hp with hp | hp
    · exact (h.settled p hp).mono h.consistent hs.consistent hle
    · exact hprobe p hp

/-- A call leaves the session fit, and its run settled. -/
theorem fit_of_call (hr : e.target.Performs R) (hs : s.Fit e good log) (hm : m.shape = e.initialInputs.shape)
    {result : RunResult} {trace : Trace} (hcall : Engine.call e.target m s = (.ok (result, trace), s')) :
    s'.Fit e good log ∧ s.world.builder ≤ s'.world.builder ∧ e.Ran R s'.world.builder ⟨m, result, trace⟩ := by
  obtain ⟨r, memory, hR, heq⟩ := hr.call m s.world
  set e' : Explorer := { e with target := e.target.following r } with he'
  rcases hcall' : Engine.call e'.target m s with ⟨out, s₁⟩
  have hs₁ : (out, { s₁ with world := { s₁.world with memory } }) =
      ((.ok (result, trace), s') : Except CallError (RunResult × Trace) × Session σ) := by
    rw [← hcall, Engine.call, heq]
    cases hcall'
    rfl
  cases hs₁
  have hfit : s.Fit e' good log := ⟨hs.ready, hs.consistent, hs.oracle, hs.recorded⟩
  obtain ⟨hs', hle, v, hv, hresult⟩ := (call_ensures (e := e') (fun _ => rfl) hfit hm).2 _ s₁ hcall'
  exact ⟨⟨hs'.ready.of_paths_eq rfl, hs'.consistent, hs'.oracle, hs'.recorded⟩, hle, r, v, hR,
    ⟨hv.ran, hv.table⟩, hresult⟩

/-- An execution leaves the session fit, and its run settled. -/
theorem fit_of_execute (hr : e.target.Performs R) (hs : s.Fit e good log) (hm : m.shape = e.initialInputs.shape)
    {x' : Exploration} {s'' : Session σ} {node : Option TreeNode} {result : RunResult} {trace : Trace}
    (hcall : Engine.call e.target m s = (.ok (result, trace), s'))
    (hexecute : e.execute x node m s = (.ok x', s'')) :
    ∃ log', s''.Fit e good log' ∧ s.world.builder ≤ s''.world.builder ∧
      e.Ran R s''.world.builder ⟨m, result, trace⟩ := by
  obtain ⟨hs', hle, hran⟩ := fit_of_call hr hs hm hcall
  obtain ⟨s₂, heq, hs₂, hle'⟩ := execute_fit hs' hcall (hran.trace hs'.consistent).1 x node
  rw [heq] at hexecute
  cases hexecute
  exact ⟨_, hs₂, hle.trans hle', hran.mono hs'.consistent hs₂.consistent hle'⟩

theorem Sound.round (hr : e.target.Performs R) (ho : o.Builds) (h : e.Sound R g) (hg : e.Reaches o s g)
    (hround : e.Round o g g') : e.Sound R g' := by
  cases hround with
  | skipped hcap hwaiting hskip => exact { h with }
  | refused hcap hsolves =>
      obtain ⟨hs, hle⟩ := h.asked hg.filed ho hsolves
      exact h.attempt hs hle _ nofun
  | executed hcap hsolves hcall hexecute =>
      obtain ⟨hs, hle⟩ := h.asked hg.filed ho hsolves
      obtain ⟨log, hs'', hle', hsettled⟩ := fit_of_execute hr hs (hsolves.shape hg.filed hg.shape) hcall hexecute
      refine h.attempt hs'' (hle.trans hle') _ fun p hp => ?_
      cases hp
      exact hsettled

theorem Reaches.sound (hr : e.target.Performs R) (ho : o.Builds) (hready : s.world.Ready e.target.path)
    (hb : s.world.builder.Consistent) (h : e.Reaches o s g) : e.Sound R g := by
  induction h with
  | seeded hcall hexecute =>
      have hs : s.Fit e (fun _ => True) s.recorded := ⟨hready, hb, trivial, rfl⟩
      obtain ⟨log, hs'', -, hsettled⟩ := fit_of_execute hr hs rfl hcall hexecute
      exact ⟨hs''.ready, hs''.consistent, List.forall_mem_singleton.mpr hsettled⟩
  | round h hround ih => exact ih.round hr ho h hround

theorem Reaches.seed (h : e.Reaches o s g) : g.seed.inputs = e.initialInputs := by
  induction h with
  | seeded hcall hexecute => rfl
  | round h hround ih => cases hround <;> exact ih

theorem keeps_of_rounds (h : Relation.ReflTransGen (e.Round o) g g') : g.state.tree.Keeps g'.state.tree := by
  induction h with
  | refl => exact g.state.tree.keeps_refl
  | tail h hround ih => exact ih.trans hround.keeps

/-- Every beginning of a node's path has a node. -/
theorem Sound.ancestor (h : e.Sound R g) (hfiled : Filed g.state g.runs g.attempts) (hn : n ∈ g.state.tree.nodes)
    {q : Trace} (hq : q ≠ []) (hbegins : q <+: n.path) : ∃ n' ∈ g.state.tree.nodes, n'.path = q := by
  obtain ⟨hformed, -⟩ := h.node hfiled hn
  obtain ⟨-, u, hu, -, -, hpath⟩ := hfiled.tree.origin n hn
  have hhas : g.state.tree.Has q.keys := hfiled.tree.has_iff.mpr
    ⟨Trace.keys_eq_nil.not.mpr hq, u, hu, (hbegins.trans hpath).map Predicate.key⟩
  obtain ⟨n', hn', hkeys⟩ := hhas
  obtain ⟨hformed', -⟩ := h.node hfiled hn'
  exact ⟨n', hn', Trace.eq_of_keys h.consistent hformed' (fun d hd => hformed d (hbegins.subset hd)) hkeys⟩

/-- What the inputs of nodes and executions are. -/
structure Snapshots (e : Explorer) (o : Oracle σ) (g : Stage σ) : Prop where
  seed : g.seed.inputs = e.initialInputs
  /-- A node holds the inputs of the execution that created it, -/
  created : ∀ n ∈ g.state.tree.nodes, Probe.Created g.probes n
  new : ∀ g', e.Round o g g' → ∀ (i : Nat) (n : TreeNode), g.state.tree.size ≤ i →
    g'.state.tree.nodes[i]? = some n → ∃ p, g'.probes = g.probes ++ [p] ∧ n.inputs = p.inputs ∧ n.path <+: p.trace
  /-- keeps them, -/
  kept : ∀ g', Relation.ReflTransGen (e.Round o) g g' → ∀ (i : Nat) (n : TreeNode),
    g.state.tree.nodes[i]? = some n →
      ∃ n' : TreeNode, g'.state.tree.nodes[i]? = some n' ∧ n'.path = n.path ∧ n'.inputs = n.inputs
  /-- and they satisfy its path, which leads through nodes. -/
  satisfied : ∀ n ∈ g.state.tree.nodes, n.path.HoldsFor n.inputs.valuation
  ancestors : ∀ n ∈ g.state.tree.nodes, ∀ q, q ≠ [] → q <+: n.path → ∃ n' ∈ g.state.tree.nodes, n'.path = q
  /-- An execution after the first one is on the inputs of the node that was asked about, with a model applied. -/
  executed : ∀ p ∈ g.probes.tail, ∃ a ∈ g.attempts, ∃ n model, a.probe = some p ∧
    g.state.tree.nodes[a.number]? = some n ∧ n.path = a.node.path ∧ a.answer = .ok (some model) ∧
    p.inputs = n.inputs.applyModel model ∧
    ∀ name input, n.inputs.find? name = some input →
      (input.symbolic = false ∨ model.find? name = none → p.inputs.find? name = some input) ∧
      ∀ w, input.symbolic = true → model.find? name = some w →
        p.inputs.find? name = some { input with value := w.toInt64 }

theorem Reaches.executed (h : e.Reaches o s g) {p : Probe} (hp : p ∈ g.probes.tail) :
    ∃ a ∈ g.attempts, ∃ n model, a.probe = some p ∧ g.state.tree.nodes[a.number]? = some n ∧
      n.path = a.node.path ∧ a.answer = .ok (some model) ∧ p.inputs = n.inputs.applyModel model := by
  obtain ⟨a, ha, hprobe⟩ := List.mem_filterMap.mp hp
  obtain ⟨n, hn, hpath, hinputs, -⟩ := h.filed.attempted a ha
  have happlied := h.applied a ha
  unfold Attempt.Applied at happlied
  rw [hprobe, ← hinputs] at happlied
  rcases hanswer : a.answer with err | _ | model
  · rw [hanswer] at happlied
    cases happlied
  · rw [hanswer] at happlied
    cases happlied
  · rw [hanswer] at happlied
    exact ⟨a, ha, n, model, hprobe, hn, hpath, hanswer, Option.some.inj happlied⟩

end Explorer

/-- Whatever the oracle answers and whichever routine each run performs, the inputs of a node are those of the execution
that created it and satisfy its path, and executions run on the inputs of the node that was asked about. -/
theorem node_inputs_are_snapshots (e : Explorer) (R : Routine → Prop) (o : Oracle σ) (s : Session σ)
    (hr : e.target.Performs R) (ho : o.Builds) (hready : s.world.Ready e.target.path)
    (hb : s.world.builder.Consistent) :
    (∀ g, e.Reaches o s g → e.Snapshots o g) ∧
    ∀ fin s', e.explore o s = (.ok fin, s') → ∃ g, e.Reaches o s g ∧ g.session = s' ∧
      fin.result.inputs = g.probes.map (·.inputs.assignments) := by
  refine ⟨fun g hg => ?_, fun fin s' hexplore => ?_⟩
  · have hfiled := hg.filed
    have hsound := hg.sound hr ho hready hb
    constructor
    case seed => exact hg.seed
    case created => exact hg.created
    case new =>
        intro g' hround i n hi hn
        obtain ⟨p, hprobes, hinputs, hbegins, -⟩ := hround.created hi hn
        exact ⟨p, hprobes, hinputs, hbegins⟩
    case kept =>
        intro g' hrounds i n hn
        obtain ⟨n', hn', hpath, hinputs, -⟩ := Explorer.keeps_of_rounds hrounds i n hn
        exact ⟨n', hn', hpath, hinputs⟩
    case satisfied => exact fun n hn => (hsound.node hfiled hn).2
    case ancestors => exact fun n hn q hq hbegins => hsound.ancestor hfiled hn hq hbegins
    case executed =>
        intro p hp
        obtain ⟨a, ha, n, model, hprobe, hn, hpath, hanswer, hinputs⟩ := hg.executed hp
        refine ⟨a, ha, n, model, hprobe, hn, hpath, hanswer, hinputs, fun name input hinput => ?_⟩
        rw [hinputs]
        exact InputMap.find?_applyModel hinput model
  · obtain ⟨g, hg, hsession, cancelled, rfl, -⟩ := (e.explore_ends o s).2 fin s' hexplore
    exact ⟨g, hg, hsession, hg.counted.inputs⟩

theorem Oracle.constantly_builds (m : Model) : (Oracle.constantly m).Builds :=
  fun _ _ _ _ _ hb _ _ => ⟨hb, le_rfl⟩

/-- Of three parameters one is fixed and one is not in the model; both keep their values, although the model has a
value for the fixed one, and although the target does something else in its second run. -/
theorem node_inputs_are_snapshots_of_partial_model :
    let asking : Routine := .param "x" (.operation (.const 0) (.operation (.const 10) (.operation (.compare .lt 0 1)
      (.operation (.compare .lt 0 2) (.branch 0 (.ret 1) (.branch 1 (.ret 0) (.ret 2)))))))
    let hasty : Routine := .param "x" (.operation (.const 10) (.operation (.compare .lt 0 1)
      (.branch 0 (.ret 0) (.ret 1))))
    let body (args : Args) : Exec SymInt := fun w =>
      if w.memory = [] then
        ((asking.run args {} w).1, { (asking.run args {} w).2 with memory := [("asked", .const 1)] })
      else hasty.run args {} w
    let e : Explorer :=
      { target := ⟨"asking", ["x", "y", "z"], body, 0, 0⟩, seed := [("z", 5)], fixed := [("y", 3)], cap := 2 }
    let s : Session Unit := { world := { paths := #[{}] }, oracle := () }
    let o : Oracle Unit := Oracle.constantly ⟨[("x", .ofInt64 (-1)), ("y", .ofInt64 7)]⟩
    e.target.Performs (· ∈ [asking, hasty]) ∧ o.Builds ∧ s.world.Ready e.target.path ∧
      s.world.builder.Consistent ∧ ∃ fin s' g, e.explore o s = (.ok fin, s') ∧
        fin.result.inputs = [[⟨"x", 0⟩, ⟨"y", 3⟩, ⟨"z", 5⟩], [⟨"x", -1⟩, ⟨"y", 3⟩, ⟨"z", 5⟩]] ∧
        e.Reaches o s g ∧ fin.result.inputs = g.probes.map (·.inputs.assignments) ∧ e.Snapshots o g := by
  intro asking hasty body e s o
  have hperforms : e.target.Performs (· ∈ [asking, hasty]) := by
    intro args w
    by_cases hfirst : w.memory = []
    · exact ⟨asking, _, List.mem_cons_self, if_pos hfirst⟩
    · exact ⟨hasty, (hasty.run args {} w).2.memory, List.mem_cons_of_mem _ (List.mem_singleton_self _), if_neg hfirst⟩
  have hready : s.world.Ready e.target.path := ⟨by decide, rfl⟩
  have hbuilds : o.Builds := Oracle.constantly_builds _
  obtain ⟨fin, s', hexplore, hinputs⟩ : ∃ fin s', e.explore o s = (.ok fin, s') ∧
      fin.result.inputs = [[⟨"x", 0⟩, ⟨"y", 3⟩, ⟨"z", 5⟩], [⟨"x", -1⟩, ⟨"y", 3⟩, ⟨"z", 5⟩]] :=
    Engine.exists_of_any (by decide +kernel)
  obtain ⟨hsnapshots, hends⟩ := node_inputs_are_snapshots e _ o s hperforms hbuilds hready consistent_empty
  obtain ⟨g, hg, -, hprobes⟩ := hends fin s' hexplore
  exact ⟨hperforms, hbuilds, hready, consistent_empty, fin, s', g, hexplore, hinputs, hg, hprobes, hsnapshots g hg⟩

end Pathwise
