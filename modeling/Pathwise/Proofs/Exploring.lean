import Pathwise.Proofs.ConstraintTree
import Pathwise.Proofs.Replay
import Pathwise.Proofs.Sessions

/-! One round of an exploration. `Explorer.Progress` says what is known after some runs: each is settled and
took a path of its own, the tree merges their traces, and a node is waiting unless its opposite was taken,
cannot be taken, or was left undecided. Solving a waiting node keeps this (`Explorer.solve_ensures`), and so does
a run on the inputs that come out, because it takes the path it was made for, on which there was no run before
(`Explorer.Progress.turn`). -/

namespace Pathwise

open Builder PredicateKey

variable {σ : Type}

/-! ### Executions -/

namespace Explorer

/-- What an execution adds to the exploration. -/
def merged (e : Explorer) (x : Exploration) (node : Option TreeNode) (inputs : InputMap) (result : RunResult)
    (trace : Trace) : Exploration :=
  { tree := (x.tree.insert trace inputs).1
    waiting := ((x.tree.insert trace inputs).2.filter
      (Exploration.isPending (x.tree.insert trace inputs).1)).foldl e.strategy.push x.waiting
    inputs := x.inputs ++ [inputs.assignments]
    returns := x.returns ++ [.ofResult result]
    stats := { x.stats with
      iterations := x.stats.iterations + 1
      processed := x.stats.processed + node.isSome.toNat
      divergences := x.stats.divergences + (node.any (!·.isFollowedBy trace)).toNat } }

theorem execute_of_ok (e : Explorer) (x : Exploration) (node : Option TreeNode) {inputs : InputMap}
    {s s' : Session σ} {result : RunResult} {trace : Trace}
    (h : Engine.call e.target inputs s = (.ok (result, trace), s')) :
    ∃ s'', e.execute x node inputs s = (.ok (e.merged x node inputs result trace), s'') ∧
      s''.world = (if e.observed then (s'.world.build trace.formula).2 else s'.world) ∧
      s''.oracle = s'.oracle ∧
      s''.recorded = s'.recorded ++ (if e.observed then [(inputs.assignments, trace)] else []) ∧
      s''.outcomes = s'.outcomes := by
  obtain ⟨s₁, hs₁, hworld, horacle, hrec, hout⟩ := Engine.emit_created (x.tree.insert trace inputs).1
    (x.tree.insert trace inputs).2 s'
  cases hobserved : e.observed with
  | false =>
      refine ⟨s₁, (bind_of_ok h).trans ((bind_of_ok hs₁).trans ?_), hworld, horacle, ?_, hout⟩
      · rw [hobserved]
        rfl
      · rw [hrec]
        exact (List.append_nil _).symm
  | true =>
      let event : Event := .execution
        ⟨e.target.name, inputs.assignments, result, trace, (s₁.world.build trace.formula).1⟩
      refine ⟨{ s₁ with world := (s₁.world.build trace.formula).2, events := s₁.events ++ [event] },
        (bind_of_ok h).trans ((bind_of_ok hs₁).trans ?_), ?_, horacle, ?_, ?_⟩
      · rw [hobserved]
        rfl
      · rw [hworld]
        rfl
      · rw [← hrec]
        exact List.filterMap_append
      · rw [← hout]
        exact List.filterMap_append.trans (List.append_nil _)

theorem execute_of_error (e : Explorer) (x : Exploration) (node : Option TreeNode) {inputs : InputMap}
    {s s' : Session σ} {err : CallError} (h : Engine.call e.target inputs s = (.error err, s')) :
    e.execute x node inputs s = (.error err, s') :=
  bind_of_error h

end Explorer

/-- The session is one in which the target can be called. -/
structure Session.Fit (s : Session σ) (e : Explorer) (good : σ → Prop) (log : List (Assignments × Trace)) :
    Prop where
  ready : s.world.Ready e.target.path
  consistent : s.world.builder.Consistent
  oracle : good s.oracle
  recorded : s.recorded = log

/-! ### The exploration -/

/-- The turned path cannot be taken. -/
def Trace.Infeasible (q : Trace) : Prop :=
  ∀ (asserts : Trace) (d : Predicate), q = asserts ++ [d] → ∀ ρ, asserts.HoldsFor ρ → ¬d.flip.HoldsFor ρ

/-- A path that needs no further attempt, or has had an attempt that the oracle did not decide. -/
def Exploration.Done (x : Exploration) (q : Trace) : Prop := q.Infeasible ∨ 0 < x.stats.unknown

namespace Explorer

variable {e : Explorer} {r : Routine} {good : σ → Prop} {b c : Builder} {x : Exploration} {waiting : List Nat}
  {runs : List (InputMap × Trace)} {done : Trace → Prop}

/-- What is known after the runs so far, each given by its inputs and its trace. -/
structure Progress (e : Explorer) (r : Routine) (b : Builder) (x : Exploration) (waiting : List Nat)
    (runs : List (InputMap × Trace)) (done : Trace → Prop) : Prop where
  shape : ∀ u ∈ runs, u.1.shape = e.initialInputs.shape
  settled : ∀ u ∈ runs, ∃ v, e.target.Settled r b u.1 (v, u.2) ∧
    ∃ result, Invocation.resultOf e.target.name v = .ok result
  inputs : x.inputs = runs.map (·.1.assignments)
  different : runs.Pairwise fun u u' => u.2.keys ≠ u'.2.keys
  tree : x.tree.Merges (SeenIn runs) done
  pending : ∀ i, Exploration.isPending x.tree i = true → i ∈ waiting
  divergences : x.stats.divergences = 0

theorem Progress.mono (hb : b.Consistent) (h : e.Progress r b x waiting runs done) (hc : c.Consistent)
    (hle : b ≤ c) : e.Progress r c x waiting runs done :=
  { h with
    settled := fun u hu => by
      obtain ⟨v, hv, hresult⟩ := h.settled u hu
      exact ⟨v, hv.mono hb hc hle, hresult⟩ }

/-- A node that is not pending need not wait. -/
theorem Progress.skip {i : Nat} (h : e.Progress r b x (i :: waiting) runs done)
    (hi : Exploration.isPending x.tree i = false) : e.Progress r b x waiting runs done :=
  { h with
    pending := fun j hj => by
      rcases List.mem_cons.mp (h.pending j hj) with rfl | hmem
      · rw [hi] at hj
        cases hj
      · exact hmem }

/-- Marking the next node, for which there is something to say. -/
theorem Progress.mark {i : Nat} {n : TreeNode} (h : e.Progress r b x (i :: waiting) runs done)
    (hi : x.tree.nodes[i]? = some n) (stats : ExplorationStats) (hdiv : stats.divergences = x.stats.divergences)
    {done' : Trace → Prop} (hdone : done' n.path) (himp : ∀ q, done q → done' q) :
    e.Progress r b { x with tree := x.tree.mark i, stats } waiting runs done' where
  shape := h.shape
  settled := h.settled
  inputs := h.inputs
  different := h.different
  tree := h.tree.mark hi hdone himp
  pending j hj := by
    rcases List.mem_cons.mp (h.pending j (ConstraintTree.isPending_of_mark hj)) with rfl | hmem
    · rw [Exploration.isPending, ConstraintTree.getElem?_mark hi, if_pos rfl] at hj
      cases hj
    · exact hmem
  divergences := hdiv.trans h.divergences

/-! ### Solving -/

/-- The inputs were found for the node: they take its path up to its decision, and then the other branch, which
has not been taken before. -/
structure Turns (e : Explorer) (x : Exploration) (runs : List (InputMap × Trace)) (node : TreeNode)
    (m : InputMap) : Prop where
  shape : m.shape = e.initialInputs.shape
  seen : SeenIn runs node.path node.inputs
  fresh : ¬x.tree.Has (opposite node.keys)
  holds : ∀ (asserts : Trace) (d : Predicate), node.path = asserts ++ [d] →
    asserts.HoldsFor m.valuation ∧ d.flip.HoldsFor m.valuation

variable {o : Oracle σ} {log : List (Assignments × Trace)} {s : Session σ}

theorem Progress.ends (hb : b.Consistent) (h : e.Progress r b x waiting runs done) {u : InputMap × Trace}
    (hu : u ∈ runs) : u.2.Formed b u.1.symbols ∧ u.2.HoldsFor u.1.valuation := by
  obtain ⟨v, hv, -⟩ := h.settled u hu
  exact (hv.ends hb).2

/-- Asking for a pending node keeps the session fit, and the answer is valid. -/
theorem ask_ensures (ho : o.Valid good) (hs : s.Fit e good log) (kind : QueryKind) {names : List (String × Nat)}
    {asserts : Trace} {query : Predicate} (hasserts : asserts.Formed s.world.builder names)
    (hquery : query.Formed s.world.builder names) :
    Engine.Ensures (Engine.ask o kind (.counterexample asserts query)) s (fun _ => False) fun a s' =>
      s'.Fit e good log ∧ s.world.builder ≤ s'.world.builder ∧ a.Valid asserts query := by
  obtain ⟨hvalid, hgood, hconsistent, hle⟩ := ho s.oracle s.world.builder names asserts query hs.oracle
    hs.consistent hasserts hquery
  refine Engine.ensures_of_eq rfl ⟨⟨hs.ready.of_paths_eq rfl, hconsistent, hgood, ?_⟩, hle, hvalid⟩
  rw [← hs.recorded]
  exact List.filterMap_append.trans (List.append_nil _)

/-- The path of a node was taken with the node's inputs. -/
theorem Progress.node (hb : b.Consistent) (h : e.Progress r b x waiting runs done) {n : TreeNode}
    (hn : n ∈ x.tree.nodes) {asserts : Trace} {d : Predicate} (hpath : n.path = asserts ++ [d]) :
    n.inputs.shape = e.initialInputs.shape ∧ asserts.Formed b n.inputs.symbols ∧
      d.Formed b n.inputs.symbols ∧ asserts.HoldsFor n.inputs.valuation := by
  obtain ⟨-, u, hu, hinputs, -, hbegins⟩ := h.tree.origin n hn
  obtain ⟨hformed, hholds⟩ := h.ends hb hu
  have hsub : ∀ d' ∈ asserts ++ [d], d' ∈ u.2 := fun d' hd' => hbegins.subset (hpath ▸ hd')
  rw [hinputs]
  refine ⟨h.shape u hu, fun d' hd' => hformed d' (hsub d' (List.mem_append_left _ hd')), ?_,
    fun d' hd' => hholds d' (hsub d' (List.mem_append_left _ hd'))⟩
  exact hformed d (hsub d (List.mem_append_right _ (List.mem_singleton_self d)))

/-- A model for the other branch of a pending node gives inputs for it. -/
theorem Progress.turns (hb : b.Consistent) (h : e.Progress r b x waiting runs done) {i : Nat} {n : TreeNode}
    (hi : x.tree.nodes[i]? = some n) (hopen : n.processed = false) {asserts : Trace} {d : Predicate}
    (hpath : n.path = asserts ++ [d]) {model : Model} (hvalid : Answer.Valid (.ok (some model)) asserts d) :
    e.Turns { x with tree := x.tree.mark i } runs n (n.inputs.applyModel model) := by
  have hmem : n ∈ x.tree.nodes := Array.mem_of_getElem? hi
  obtain ⟨hshape, hasserts, hd, hholds⟩ := h.node hb hmem hpath
  obtain ⟨hnil, u, hu, hinputs, -, hbegins⟩ := h.tree.origin n hmem
  refine ⟨?_, ⟨u, hu, hinputs, hnil, hbegins⟩, ?_, fun asserts' d' heq => ?_⟩
  · rw [InputMap.shape_applyModel, hshape]
  · rw [ConstraintTree.has_mark h.tree.distinct hi]
    intro hhas
    rw [h.tree.paired n hmem hhas] at hopen
    cases hopen
  · obtain ⟨rfl, hd'⟩ := List.append_inj' (hpath.symm.trans heq) rfl
    cases hd'
    exact hvalid.sat model rfl n.inputs
      (List.forall_mem_cons.mpr ⟨hd.free, fun d' hd' => (hasserts d' hd').free⟩) hholds

theorem solve_ensures (ho : o.Valid good) (hs : s.Fit e good log) {i : Nat} {n : TreeNode} {query : Predicate}
    (h : e.Progress r s.world.builder x (i :: waiting) runs x.Done) (hi : x.tree.nodes[i]? = some n)
    (hquery : n.predicate? = some query) (hopen : n.processed = false) :
    Engine.Ensures (solve o x i n query) s (fun _ => False) fun out s' =>
      s'.Fit e good log ∧
        (out.1 = none → e.Progress r s'.world.builder out.2 waiting runs out.2.Done) ∧
        ∀ m, out.1 = some m → e.Turns out.2 runs n m ∧
          e.Progress r s'.world.builder out.2 waiting runs fun q => out.2.Done q ∨ q = n.path := by
  have hpath : n.path = n.asserts ++ [query] := (List.dropLast_append_getLast? query hquery).symm
  obtain ⟨-, hasserts, hformed, -⟩ := h.node hs.consistent (Array.mem_of_getElem? hi) hpath
  refine Engine.Ensures.bind (ask_ensures ho hs .branch hasserts hformed) fun a s' ha => ?_
  obtain ⟨hs', hle, hvalid⟩ := ha
  have h' := h.mono hs.consistent hs'.consistent hle
  rcases a with err | _ | m
  · refine Engine.ensures_of_eq rfl ⟨hs', fun _ => ?_, nofun⟩
    exact h'.mark hi { x.stats with unknown := x.stats.unknown + 1 } rfl (Or.inr (Nat.succ_pos _))
      fun q hq => hq.imp_right fun _ => Nat.succ_pos _
  · refine Engine.ensures_of_eq rfl ⟨hs', fun _ => ?_, nofun⟩
    refine h'.mark hi { x.stats with infeasible := x.stats.infeasible + 1 } rfl
      (Or.inl fun asserts d heq => ?_) fun q hq => hq
    obtain ⟨rfl, hd⟩ := List.append_inj' (hpath.symm.trans heq) rfl
    cases hd
    exact hvalid.unsat rfl
  · refine Engine.ensures_of_eq rfl ⟨hs', nofun, ?_⟩
    rintro _ ⟨⟩
    exact ⟨h'.turns hs'.consistent hi hopen hpath hvalid,
      h'.mark hi x.stats rfl (Or.inr rfl) fun q hq => Or.inl hq⟩

/-! ### Executing -/

/-- An exploration may fail because the target asks for something that is no parameter. -/
def Fails (e : Explorer) (r : Routine) (err : CallError) : Prop :=
  ∃ name ∈ r.asks, name ∉ e.target.params ∧ err = .unknownParameter name

theorem find?_initialInputs {name : String} (h : name ∈ e.target.params) : e.initialInputs.find? name ≠ none := by
  refine InputMap.find?_ofList_ne_none (List.mem_map.mpr ?_)
  refine ⟨_, List.mem_map_of_mem h, ?_⟩
  cases settingFor name e.fixed <;> rfl

variable {m : InputMap} {v : Except Stop SymInt} {t : Trace} {result : RunResult}

/-- Every parameter has an input, so a run is not refused. -/
theorem exists_run (hb : b.Consistent) (hm : m.shape = e.initialInputs.shape) :
    ∃ v t, (e.target.runM r m b).1 = .ok (v, t) := by
  rcases hrun : (e.target.runM r m b).1 with err | ⟨v, t⟩
  · obtain ⟨name, hname, hnone, -⟩ := (e.target.runM_runs r hb m).post.missing err hrun
    rcases InputMap.find?_of_shape hm name with ⟨-, hinitial⟩ | ⟨i, j, hi, -⟩
    · exact absurd hinitial (find?_initialInputs hname)
    · rw [hi] at hnone
      cases hnone
  · exact ⟨v, t, rfl⟩

theorem call_ensures (hr : e.target.Follows r) (hs : s.Fit e good log) (hm : m.shape = e.initialInputs.shape) :
    Engine.Ensures (Engine.call e.target m) s (e.Fails r) fun out s' =>
      s'.Fit e good log ∧ s.world.builder ≤ s'.world.builder ∧
        ∃ v, e.target.Settled r s'.world.builder m (v, out.2) ∧
          Invocation.resultOf e.target.name v = .ok out.1 := by
  have hrun := e.target.runM_runs r hs.consistent m
  obtain ⟨v, t, hran⟩ := exists_run (r := r) hs.consistent hm
  have hcall : Engine.call e.target m s = ((Invocation.resultOf e.target.name v).map (·, t),
      { s with world := { s.world with builder := (e.target.runM r m s.world.builder).2 } }) := by
    unfold Engine.call
    rw [Invocation.call_eq hr hs.ready]
    change (Except.bind (e.target.runM r m s.world.builder).1 _, _) = _
    rw [hran]
    rfl
  rcases hresult : Invocation.resultOf e.target.name v with err | result
  · rw [hresult] at hcall
    refine Engine.ensures_of_error hcall ?_
    rcases v with stop | x
    · rcases hrun.post.stopped stop t hran with ⟨text, rfl⟩ | ⟨name, hasks, hparams, rfl⟩
      · cases hresult
      · cases hresult
        exact ⟨name, hasks, hparams, rfl⟩
    · cases hresult
  · rw [hresult] at hcall
    exact Engine.ensures_of_eq hcall
      ⟨⟨hs.ready.of_paths_eq rfl, hrun.consistent, hs.oracle, hs.recorded⟩, hrun.grows, v,
        Invocation.settled_runM hs.consistent hran, hresult⟩

/-- An execution whose call returned keeps the session fit. -/
theorem execute_fit {s₁ : Session σ} {names : List (String × Nat)} (hs₁ : s₁.Fit e good log)
    (hrun : Engine.call e.target m s = (.ok (result, t), s₁)) (ht : t.Formed s₁.world.builder names) (x : Exploration)
    (node : Option TreeNode) : ∃ s₂, e.execute x node m s = (.ok (e.merged x node m result t), s₂) ∧
      s₂.Fit e good (log ++ if e.observed then [(m.assignments, t)] else []) ∧
      s₁.world.builder ≤ s₂.world.builder := by
  obtain ⟨s₂, hexecute, hworld, horacle, hrec, -⟩ := execute_of_ok e x node hrun
  have hformula := Trace.formula_runs hs₁.consistent ht
  have hpaths : s₂.world.paths = s₁.world.paths := by
    rw [hworld]
    split_ifs <;> rfl
  have hbuilder : s₂.world.builder.Consistent ∧ s₁.world.builder ≤ s₂.world.builder := by
    rw [hworld]
    split_ifs
    · exact ⟨hformula.consistent, hformula.grows⟩
    · exact ⟨hs₁.consistent, le_rfl⟩
  refine ⟨s₂, hexecute, ⟨hs₁.ready.of_paths_eq hpaths, hbuilder.1, ?_, ?_⟩, hbuilder.2⟩
  · rw [horacle]
    exact hs₁.oracle
  · rw [hrec, hs₁.recorded]

/-- An execution whose call returned leaves a settled run behind. -/
theorem execute_settles {s₁ s₂ : Session σ} {x' : Exploration} {node : Option TreeNode} (hr : e.target.Follows r)
    (hs : s.Fit e good log) (hm : m.shape = e.initialInputs.shape)
    (hcall : Engine.call e.target m s = (.ok (result, t), s₁)) (hexecute : e.execute x node m s = (.ok x', s₂)) :
    x' = e.merged x node m result t ∧ s₂.Fit e good (log ++ if e.observed then [(m.assignments, t)] else []) ∧
      s.world.builder ≤ s₂.world.builder ∧
      ∃ v, e.target.Settled r s₂.world.builder m (v, t) ∧ Invocation.resultOf e.target.name v = .ok result := by
  obtain ⟨hs₁, hle, v, hv, hresult⟩ := (call_ensures hr hs hm).2 _ s₁ hcall
  obtain ⟨s₃, heq, hs₃, hle'⟩ := execute_fit hs₁ hcall (hv.ends hs₁.consistent).2.1 x node
  rw [heq] at hexecute
  cases hexecute
  exact ⟨rfl, hs₃, hle.trans hle', v, hv.mono hs₁.consistent hs₃.consistent hle', hresult⟩

theorem foldl_push_perm (strategy : Strategy) (new waiting : List Nat) :
    (new.foldl strategy.push waiting).Perm (waiting ++ new) := by
  induction new generalizing waiting with
  | nil => simp
  | cons i new ih =>
      refine (ih _).trans ?_
      cases strategy with
      | breadthFirst => simp [Strategy.push]
      | depthFirst => exact List.perm_middle.symm

theorem mem_foldl_push (strategy : Strategy) (new waiting : List Nat) (i : Nat) :
    i ∈ new.foldl strategy.push waiting ↔ i ∈ waiting ∨ i ∈ new := by
  rw [(foldl_push_perm strategy new waiting).mem_iff, List.mem_append]

theorem progress_empty (e : Explorer) (r : Routine) (b : Builder) (done : Trace → Prop) :
    e.Progress r b {} [] [] done where
  shape := nofun
  settled := nofun
  inputs := rfl
  different := .nil
  tree := (ConstraintTree.merges_empty done).congr fun q m => ⟨False.elim, nofun⟩
  pending i hi := by cases hi
  divergences := rfl

/-- Merging the trace of a further run. -/
theorem Progress.merge (hb : b.Consistent) (h : e.Progress r b x x.waiting runs done) (hc : c.Consistent)
    (hle : b ≤ c) (hm : m.shape = e.initialInputs.shape) (hv : e.target.Settled r c m (v, t))
    (hresult : Invocation.resultOf e.target.name v = .ok result) (hnew : ∀ u ∈ runs, u.2.keys ≠ t.keys)
    {node : Option TreeNode} (hnode : node.any (!·.isFollowedBy t) = false) {done' : Trace → Prop}
    (hdone : ∀ q, done q → done' q ∨ ∃ q' : Trace, q' ≠ [] ∧ q' <+: t ∧ q'.keys = opposite q.keys) :
    e.Progress r c (e.merged x node m result t) (e.merged x node m result t).waiting (runs ++ [(m, t)]) done' where
  shape := List.forall_mem_append.mpr ⟨h.shape, List.forall_mem_singleton.mpr hm⟩
  settled := List.forall_mem_append.mpr ⟨(h.mono hb hc hle).settled,
    List.forall_mem_singleton.mpr ⟨v, hv, result, hresult⟩⟩
  inputs := by
    rw [List.map_append, ← h.inputs]
    rfl
  different := by
    rw [List.pairwise_append]
    refine ⟨h.different, List.pairwise_singleton _ _, fun u hu u' hu' => ?_⟩
    rw [List.mem_singleton.mp hu']
    exact hnew u hu
  tree := by
    have htree := h.tree.insert_run t m
    refine htree.resolve fun n _ hn => (hdone n.path hn).imp_right ?_
    rintro ⟨q, hq, hbegins, hkeys⟩
    have hseen : SeenIn (runs ++ [(m, t)]) q m :=
      ⟨(m, t), List.mem_append_right _ (List.mem_singleton_self _), rfl, hq, hbegins⟩
    have := htree.holds q m hseen
    rwa [hkeys] at this
  pending i hi := by
    refine (mem_foldl_push e.strategy _ _ i).mpr ?_
    exact (ConstraintTree.isPending_insert hi).imp (h.pending i) fun hmem => List.mem_filter.mpr ⟨hmem, hi⟩
  divergences := by
    change x.stats.divergences + (node.any (!·.isFollowedBy t)).toNat = 0
    rw [h.divergences, hnode]
    rfl

/-- Two places at which a list is split are one place, or one comes before the other. -/
theorem eq_or_mem_of_split {α : Type} {xs ys xs' ys' : List α} {a a' : α} (h : xs ++ a :: ys = xs' ++ a' :: ys') :
    (xs = xs' ∧ a = a') ∨ a ∈ xs' ∨ a' ∈ xs := by
  rcases List.append_eq_append_iff.mp h with ⟨mid, rfl, hmid⟩ | ⟨mid, rfl, hmid⟩
  all_goals
    cases mid with
    | nil =>
        cases hmid
        exact Or.inl ⟨by simp, rfl⟩
    | cons c mid =>
        cases hmid
        simp

/-- A run on inputs that were found for a node does what they were found for. -/
theorem Turns.follows (hc : c.Consistent) {node : TreeNode} (h : e.Turns x runs node m)
    (hprogress : e.Progress r c x waiting runs done) (hv : e.target.Settled r c m (v, t)) {asserts : Trace}
    {d : Predicate} (hpath : node.path = asserts ++ [d]) : ∃ rest, t = asserts ++ d.flip :: rest := by
  obtain ⟨hasserts, hd⟩ := h.holds asserts d hpath
  obtain ⟨⟨mu, tu⟩, hu, -, -, z, hz⟩ := h.seen
  obtain ⟨vu, hvu, -⟩ := hprogress.settled _ hu
  have hholds : t.HoldsFor m.valuation := (hv.ends hc).2.2
  rw [hpath, List.append_assoc] at hz
  change asserts ++ d :: z = tu at hz
  have hcoherent := hvu.coherent hc hv ((hprogress.shape _ hu).trans h.shape.symm)
  -- The two traces part at the decision of the node: before it, the new inputs take the decisions of the path.
  cases hcoherent with
  | same _ ends =>
      have hmem : d ∈ tu := hz ▸ List.mem_append_right asserts List.mem_cons_self
      exact absurd hd (hholds d hmem).not_flip
  | apart before d' rest rest' =>
      rcases eq_or_mem_of_split hz with ⟨rfl, rfl⟩ | hmem | hmem
      · exact ⟨rest', rfl⟩
      · exact absurd hd (hholds d (List.mem_append_left _ hmem)).not_flip
      · exact absurd (hholds d'.flip (List.mem_append_right _ List.mem_cons_self)) (hasserts d' hmem).not_flip

/-- A run on inputs that were found for a node takes a path that no run has taken. -/
theorem Progress.turn (hb : b.Consistent) {node : TreeNode}
    (h : e.Progress r b x x.waiting runs fun q => x.Done q ∨ q = node.path) (hturns : e.Turns x runs node m)
    (hc : c.Consistent) (hle : b ≤ c) (hv : e.target.Settled r c m (v, t))
    (hresult : Invocation.resultOf e.target.name v = .ok result) :
    e.Progress r c (e.merged x (some node) m result t) (e.merged x (some node) m result t).waiting
      (runs ++ [(m, t)]) (e.merged x (some node) m result t).Done := by
  obtain ⟨u, hu, -, hnil, -⟩ := hturns.seen
  obtain ⟨asserts, d, hpath⟩ : ∃ asserts d, node.path = asserts ++ [d] := by
    rcases List.eq_nil_or_concat node.path with hpath | ⟨asserts, d, hpath⟩
    · exact absurd hpath hnil
    · exact ⟨asserts, d, by rw [hpath, List.concat_eq_append]⟩
  obtain ⟨rest, ht⟩ := hturns.follows hc (h.mono hb hc hle) hv hpath
  have hopposite := TreeNode.opposite_keys hpath
  have hbegins : asserts ++ [d.flip] <+: t := ⟨rest, by rw [ht, List.append_assoc]; rfl⟩
  have hseen : asserts ++ [d.flip] ≠ [] := List.append_ne_nil_of_right_ne_nil _ (List.cons_ne_nil _ _)
  refine h.merge hb hc hle hturns.shape hv hresult (fun u' hu' hkeys => hturns.fresh ?_) ?_ fun q hq => ?_
  · have heq : u'.2 = t := Trace.eq_of_keys hc ((h.mono hb hc hle).ends hc hu').1 (hv.ends hc).2.1 hkeys
    rw [hopposite]
    exact h.tree.holds _ u'.1 ⟨u', hu', rfl, hseen, heq ▸ hbegins⟩
  · rw [Option.any_some, Bool.not_eq_false', TreeNode.isFollowedBy, TreeNode.predicate?, TreeNode.asserts, hpath,
      List.getLast?_concat, List.dropLast_concat]
    change (Trace.keys asserts ++ [d.flip.key]).isPrefixOf t.keys = true
    have hkeys := hbegins.map Predicate.key
    rw [List.map_append] at hkeys
    exact List.isPrefixOf_iff_prefix.mpr hkeys
  · rcases hq with hq | rfl
    · exact Or.inl hq
    · exact Or.inr ⟨_, hseen, hbegins, hopposite.symm⟩

end Explorer
end Pathwise
