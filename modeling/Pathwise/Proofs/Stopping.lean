import Mathlib.Data.List.Perm.Subperm
import Mathlib.Order.WellFounded
import Pathwise.Proofs.SameNodes
import Pathwise.Proofs.Snapshots

/-! Explorations stop, whatever the oracle answers. With a cap, a round brings the number of executions nearer to it or
takes a node off those that wait. Without one, the target has to be a routine: its runs part only at decisions, so two
nodes that are reached by the same decisions are one node or siblings, and at most one of them is ever asked about. There
are fewer than `2 ^ d` sequences of fewer than `d` decisions, so there are fewer questions, and no more than `2 ^ d`
executions. -/

namespace Pathwise

open Builder PredicateKey

variable {σ : Type}

/-! ### Sequences of decisions -/

/-- Numbers sequences of decisions, the empty one by 1. -/
def decisionCode : List Bool → Nat
  | [] => 1
  | d :: ds => 2 * decisionCode ds + d.toNat

theorem decisionCode_pos (ds : List Bool) : 0 < decisionCode ds := by
  induction ds with
  | nil => exact Nat.one_pos
  | cons d ds ih =>
      rw [decisionCode]
      omega

theorem decisionCode_lt (ds : List Bool) : decisionCode ds < 2 ^ (ds.length + 1) := by
  induction ds with
  | nil => decide
  | cons d ds ih =>
      have hbit : d.toNat ≤ 1 := Bool.toNat_le d
      rw [decisionCode, List.length_cons, pow_succ]
      omega

theorem decisionCode_injective : Function.Injective decisionCode := by
  intro ds
  induction ds with
  | nil =>
      intro ds' h
      cases ds' with
      | nil => rfl
      | cons d' ds' =>
          have hpos := decisionCode_pos ds'
          simp only [decisionCode] at h
          omega
  | cons d ds ih =>
      intro ds' h
      cases ds' with
      | nil =>
          have hpos := decisionCode_pos ds
          simp only [decisionCode] at h
          omega
      | cons d' ds' =>
          have hbit := Bool.toNat_le d
          have hbit' := Bool.toNat_le d'
          simp only [decisionCode] at h
          have hrest : decisionCode ds = decisionCode ds' := by omega
          have hhead : d = d' := by
            cases d <;> cases d' <;> simp at h ⊢ <;> omega
          rw [ih hrest, hhead]

/-- Of sequences of fewer than `d` decisions there are fewer than `2 ^ d`. -/
theorem length_lt_two_pow {l : List (List Bool)} {d : Nat} (hnodup : l.Nodup) (hlength : ∀ ds ∈ l, ds.length < d) :
    l.length < 2 ^ d := by
  have hcodes : (0 :: l.map decisionCode).Nodup := by
    refine List.nodup_cons.mpr ⟨fun hmem => ?_, hnodup.map decisionCode_injective⟩
    obtain ⟨ds, -, hzero⟩ := List.mem_map.mp hmem
    exact absurd hzero (decisionCode_pos ds).ne'
  have hrange : 0 :: l.map decisionCode ⊆ List.range (2 ^ d) := by
    intro c hc
    rw [List.mem_range]
    rcases List.mem_cons.mp hc with rfl | hc
    · exact Nat.two_pow_pos d
    · obtain ⟨ds, hds, rfl⟩ := List.mem_map.mp hc
      calc decisionCode ds < 2 ^ (ds.length + 1) := decisionCode_lt ds
        _ ≤ 2 ^ d := Nat.pow_le_pow_right Nat.two_pos (hlength ds hds)
  have hle := (hcodes.subperm hrange).length_le
  rw [List.length_cons, List.length_map, List.length_range] at hle
  omega

namespace Explorer

variable {e : Explorer} {r : Routine} {o : Oracle σ} {g g' : Stage σ} {s : Session σ} {d : Nat}

/-! ### Rounds -/

/-- A round makes an execution, or takes a node off those that wait, and it makes an attempt or leaves the others be. -/
theorem Round.measures (h : e.Round o g g') :
    g'.state.stats.iterations = g.state.stats.iterations + 1 ∧ g'.attempts.length = g.attempts.length + 1 ∨
      g'.state.stats.iterations = g.state.stats.iterations ∧ g'.state.waiting.length < g.state.waiting.length ∧
        (g'.attempts.length = g.attempts.length ∨ g'.attempts.length = g.attempts.length + 1) := by
  cases h with
  | skipped hcap hwaiting hskip =>
      refine Or.inr ⟨rfl, ?_, Or.inl rfl⟩
      rw [hwaiting]
      exact Nat.lt_succ_self _
  | refused hcap hsolves =>
      have hiterations := hsolves.iterations
      obtain ⟨rest, hwaiting, rfl⟩ := hsolves.state
      refine Or.inr ⟨hiterations, ?_, Or.inr List.length_append⟩
      rw [hwaiting]
      exact Nat.lt_succ_self _
  | executed hcap hsolves hcall hexecute =>
      refine Or.inl ⟨?_, List.length_append⟩
      rw [Stage.state_attempt, execute_eq hcall hexecute, ← hsolves.iterations]
      rfl

theorem Round.lt_cap (h : e.Round o g g') (hpos : 0 < e.cap) : g.state.stats.iterations < e.cap := by
  have hcap : ¬e.CapReached g.state := by cases h <;> assumption
  exact Nat.lt_of_not_le fun hle => hcap ⟨hpos, hle⟩

/-- Rounds do not go on forever if a measure of two numbers gets smaller. -/
theorem acc_of_measure {P : Stage σ → Prop} (μ : Stage σ → Nat × Nat)
    (hstep : ∀ g g', P g → e.Round o g g' → P g' ∧ Prod.Lex (· < ·) (· < ·) (μ g') (μ g)) (hg : P g) :
    Acc (fun g' g => e.Round o g g') g := by
  have hwf : WellFounded (Prod.Lex (· < ·) (· < ·) : Nat × Nat → Nat × Nat → Prop) :=
    WellFounded.prod_lex Nat.lt_wfRel.wf Nat.lt_wfRel.wf
  induction hμ : μ g using hwf.induction generalizing g with
  | _ p ih =>
      refine Acc.intro g fun g' hround => ?_
      obtain ⟨hg', hlt⟩ := hstep g g' hg hround
      exact ih (μ g') (hμ ▸ hlt) hg' rfl

theorem acc_of_cap (hpos : 0 < e.cap) (g : Stage σ) : Acc (fun g' g => e.Round o g g') g := by
  refine acc_of_measure (P := fun _ => True)
    (fun g => (e.cap - g.state.stats.iterations, g.state.waiting.length)) (fun g g' _ hround => ⟨trivial, ?_⟩) trivial
  have hcap := hround.lt_cap hpos
  rcases hround.measures with ⟨hiterations, -⟩ | ⟨hiterations, hwaiting, -⟩
  · apply Prod.Lex.left
    omega
  · rw [hiterations]
    exact Prod.Lex.right _ hwaiting

theorem Reaches.iterations_le_cap (h : e.Reaches o s g) (hpos : 0 < e.cap) :
    g.state.stats.iterations ≤ e.cap := by
  induction h with
  | seeded hcall hexecute =>
      rw [execute_eq hcall hexecute]
      exact hpos
  | round h hround ih =>
      have hcap := hround.lt_cap hpos
      rcases hround.measures with ⟨hiterations, -⟩ | ⟨hiterations, -⟩ <;> omega

/-- There is a next round as long as something waits, the cap is not reached, and calls return. -/
theorem Reaches.next (h : e.Reaches o s g) (hcap : ¬e.CapReached g.state) (hwaiting : g.state.waiting ≠ []) :
    (∃ err, e.Breaks o s err) ∨ ∃ g', e.Round o g g' := by
  obtain ⟨i, rest, hwaiting⟩ := List.exists_cons_of_ne_nil hwaiting
  by_cases hskip : ∀ n, g.state.tree.nodes[i]? = some n → n.predicate? = none ∨ n.processed = true
  · exact Or.inr ⟨_, .skipped hcap hwaiting hskip⟩
  · push Not at hskip
    obtain ⟨n, hn, hpredicate, hopen⟩ := hskip
    obtain ⟨query, hquery⟩ := Option.ne_none_iff_exists'.mp hpredicate
    obtain ⟨a, s', hask, -⟩ := Engine.ask_eq o .branch (.counterexample n.asserts query) g.session
    have hsolves := Solves.intro hwaiting hn hquery (Bool.eq_false_iff.mpr hopen) (congrArg Prod.fst hask)
      (solve_of_ask hask)
    cases hm : a.model? with
    | none =>
        rw [hm] at hsolves
        exact Or.inr ⟨_, .refused hcap hsolves⟩
    | some model =>
        rw [hm] at hsolves
        rcases hcall : Engine.call e.target (n.inputs.applyModel model) s' with ⟨err | ⟨result, trace⟩, s''⟩
        · exact Or.inl ⟨err, .round h hsolves hcall⟩
        · obtain ⟨s₂, hexecute, -⟩ := execute_of_ok e _ (some n) hcall
          exact Or.inr ⟨_, .executed hcap hsolves hcall hexecute⟩

/-! ### Questions -/

end Explorer

/-- Runs that have decided alike come to the same condition. -/
theorem Coherent.next {e e' : Except Stop SymInt} {t t' rest rest' : Trace} {q q' : Predicate}
    (h : Coherent (e, t ++ q :: rest) (e', t' ++ q' :: rest')) (heq : t.map (·.taken) = t'.map (·.taken)) :
    t = t' ∧ q.cond = q'.cond := by
  have hlength : t.length = t'.length := by simpa using congrArg List.length heq
  have htake : (t ++ q :: rest).take t.length = t := List.take_left
  have htake' : (t' ++ q' :: rest').take t.length = t' := by
    rw [hlength]
    exact List.take_left
  obtain ⟨hsame, hnext⟩ := h.agree (n := t.length) (by simp) (by simp [hlength]) (by rw [htake, htake', heq])
  rw [htake, htake'] at hsame
  subst hsame
  simp only [List.getElem?_append_right le_rfl, Nat.sub_self, List.getElem?_cons_zero, Option.map_some,
    Option.some.injEq] at hnext
  exact ⟨rfl, hnext⟩

/-- The decisions on the way to the node that was asked about. -/
def Attempt.decisions (a : Attempt) : List Bool := a.node.asserts.map (·.taken)

namespace Explorer

variable {e : Explorer} {r : Routine} {o : Oracle σ} {g g' : Stage σ} {s : Session σ} {d : Nat} {a a' : Attempt}

/-- The node of an attempt is on the trace of an execution. -/
theorem Filed.trace (h : Filed g.state g.runs g.attempts) (ha : a ∈ g.attempts) :
    ∃ p ∈ g.probes, ∃ q rest, a.node.path = a.node.asserts ++ [q] ∧ p.trace = a.node.asserts ++ q :: rest := by
  obtain ⟨n, hn, hpath, -⟩ := h.attempted a ha
  have hmem : n ∈ g.state.tree.nodes := Array.mem_of_getElem? hn
  have hnil : a.node.path ≠ [] := hpath ▸ (h.tree.origin n hmem).1
  obtain ⟨p, hp, -, rest, hrest⟩ := h.probe hmem
  obtain ⟨q, hsplit⟩ : ∃ q, a.node.path = a.node.asserts ++ [q] := ⟨_, (List.dropLast_append_getLast hnil).symm⟩
  refine ⟨p, hp, q, rest, hsplit, ?_⟩
  rw [← hrest, hpath, hsplit, List.append_assoc]
  rfl

/-- Nodes that are reached by the same decisions are on the same condition. -/
theorem Sound.same_condition (h : e.Sound (· = r) g) (hg : e.Reaches o s g) (ha : a ∈ g.attempts)
    (ha' : a' ∈ g.attempts) (heq : a.decisions = a'.decisions) :
    ∃ q q', a.node.path = a.node.asserts ++ [q] ∧ a'.node.path = a.node.asserts ++ [q'] ∧ q.cond = q'.cond := by
  obtain ⟨p, hp, q, rest, hpath, htrace⟩ := hg.filed.trace ha
  obtain ⟨p', hp', q', rest', hpath', htrace'⟩ := hg.filed.trace ha'
  obtain ⟨_, v, rfl, hv, -⟩ := h.settled p hp
  obtain ⟨_, v', rfl, hv', -⟩ := h.settled p' hp'
  have hcoherent := hv.coherent h.consistent hv' ((hg.shape p hp).trans (hg.shape p' hp').symm)
  rw [htrace, htrace'] at hcoherent
  obtain ⟨hasserts, hcond⟩ := hcoherent.next heq
  exact ⟨q, q', hpath, by rw [hasserts, hpath'], hcond⟩

/-- So only one of them is asked about: they are one node, or siblings. -/
theorem Sound.number_eq (h : e.Sound (· = r) g) (hg : e.Reaches o s g) (ha : a ∈ g.attempts) (ha' : a' ∈ g.attempts)
    (heq : a.decisions = a'.decisions) : a.number = a'.number := by
  have hfiled := hg.filed
  obtain ⟨q, q', hpath, hpath', hcond⟩ := h.same_condition hg ha ha' heq
  by_cases htaken : q.taken = q'.taken
  · obtain ⟨n, hn, hpathn, -⟩ := hfiled.attempted a ha
    obtain ⟨n', hn', hpathn', -⟩ := hfiled.attempted a' ha'
    refine hfiled.tree.distinct.eq_of_keys hn hn' ?_
    have hkey : q.key = q'.key := by rw [Predicate.key, Predicate.key, hcond, htaken]
    calc n.keys = a.node.keys := congrArg Trace.keys hpathn
      _ = a'.node.keys := by
        rw [TreeNode.keys, TreeNode.keys, hpath, hpath', Trace.keys_append, Trace.keys_append]
        exact congrArg (Trace.keys a.node.asserts ++ [·]) hkey
      _ = n'.keys := (congrArg Trace.keys hpathn').symm
  · refine absurd ?_ (hfiled.apart a ha a' ha')
    have hflip : q'.key = q.flip.key := by
      rw [Predicate.key, Predicate.key, Predicate.flip, hcond, Bool.eq_not_of_ne (Ne.symm htaken)]
    rw [TreeNode.opposite_keys hpath, TreeNode.keys, hpath', Trace.keys_append, Trace.keys_append]
    exact congrArg (Trace.keys a.node.asserts ++ [·]) hflip

/-- On no inputs that an exploration comes to does the target record more than `d` decisions. -/
def RecordsAtMost (e : Explorer) (d : Nat) : Prop :=
  ∀ (m : InputMap) (w : World) (result : RunResult) (t : Trace), m.shape = e.initialInputs.shape →
    w.Ready e.target.path → w.builder.Consistent → (e.target.call m w).1 = .ok (result, t) → t.length ≤ d

theorem Sound.length_le (h : e.Sound (· = r) g) (hr : e.target.Follows r) (hg : e.Reaches o s g) (hd : e.RecordsAtMost d)
    {p : Probe} (hp : p ∈ g.probes) : p.trace.length ≤ d := by
  obtain ⟨_, v, rfl, hv, hresult⟩ := h.settled p hp
  exact hd p.inputs g.session.world p.result p.trace (hg.shape p hp) h.ready h.consistent
    (Invocation.call_of_runM hr h.ready hv.ran hresult)

theorem Sound.attempts_lt (h : e.Sound (· = r) g) (hr : e.target.Follows r) (hg : e.Reaches o s g)
    (hd : e.RecordsAtMost d) : g.attempts.length < 2 ^ d := by
  have hnodup : (g.attempts.map Attempt.decisions).Nodup := by
    have honce := hg.filed.once
    rw [List.nodup_iff_pairwise_ne, List.pairwise_map] at honce ⊢
    exact honce.imp_of_mem fun ha ha' hne heq => hne (h.number_eq hg ha ha' heq)
  have hlength : ∀ ds ∈ g.attempts.map Attempt.decisions, ds.length < d := by
    intro ds hds
    obtain ⟨a, ha, rfl⟩ := List.mem_map.mp hds
    obtain ⟨p, hp, q, rest, -, htrace⟩ := hg.filed.trace ha
    have hle := h.length_le hr hg hd hp
    rw [htrace, List.length_append, List.length_cons] at hle
    rw [Attempt.decisions, List.length_map]
    omega
  have hlt := length_lt_two_pow hnodup hlength
  rwa [List.length_map] at hlt

theorem Reaches.iterations_le (h : e.Reaches o s g) : g.state.stats.iterations ≤ g.attempts.length + 1 := by
  have hcounted := h.counted
  have hle : g.outcomes.count .sat ≤ g.outcomes.length := List.count_le_length
  have hlength : g.outcomes.length = g.attempts.length := List.length_map _
  rw [hcounted.iterations, hcounted.probes]
  omega

/-- What is needed for the exploration of a routine to stop. -/
structure Bounded (e : Explorer) (r : Routine) (o : Oracle σ) (s : Session σ) (d : Nat) : Prop where
  follows : e.target.Follows r
  builds : o.Builds
  ready : s.world.Ready e.target.path
  consistent : s.world.builder.Consistent
  records : e.RecordsAtMost d

theorem Bounded.attempts_lt (h : e.Bounded r o s d) (hg : e.Reaches o s g) : g.attempts.length < 2 ^ d :=
  (hg.sound h.follows.performs h.builds h.ready h.consistent).attempts_lt h.follows hg h.records

theorem Bounded.acc (h : e.Bounded r o s d) (hg : e.Reaches o s g) : Acc (fun g' g => e.Round o g g') g := by
  refine acc_of_measure (fun g => (2 ^ d - g.attempts.length, g.state.waiting.length))
    (fun g g' hg hround => ⟨hg.round hround, ?_⟩) hg
  have hlt := h.attempts_lt (hg.round hround)
  rcases hround.measures with ⟨-, hattempts⟩ | ⟨-, hwaiting, hattempts | hattempts⟩
  · apply Prod.Lex.left
    omega
  · rw [hattempts]
    exact Prod.Lex.right _ hwaiting
  · apply Prod.Lex.left
    omega

/-- The call that broke the exploration was on inputs of the initial shape. -/
theorem Breaks.call {err : CallError} (h : e.Breaks o s err) :
    ∃ m w, m.shape = e.initialInputs.shape ∧ (e.target.call m w).1 = .error err := by
  cases h with
  | seed hcall => exact ⟨_, _, rfl, congrArg Prod.fst hcall⟩
  | round hg hsolves hcall => exact ⟨_, _, hsolves.shape hg.filed hg.shape, congrArg Prod.fst hcall⟩

theorem Bounded.fails (h : e.Bounded r o s d) {err : CallError} (hbreaks : e.Breaks o s err) : e.Fails r err := by
  cases hbreaks with
  | seed hcall =>
      have hs : s.Fit e (fun _ => True) s.recorded := ⟨h.ready, h.consistent, trivial, rfl⟩
      exact (call_ensures h.follows hs rfl).1 err _ hcall
  | round hg hsolves hcall =>
      have hsound := hg.sound h.follows.performs h.builds h.ready h.consistent
      obtain ⟨hs, -⟩ := hsound.asked hg.filed h.builds hsolves
      exact (call_ensures h.follows hs (hsolves.shape hg.filed hg.shape)).1 err _ hcall

end Explorer

/-! ### The depth of a routine -/

theorem SymBool.length_record_le (x : SymBool) (b : Builder) : (x.record b).1.length ≤ 1 := by
  unfold record
  cases x.origin with
  | none => exact Nat.zero_le 1
  | some o => exact le_rfl

/-- The largest number of branches on a way through the routine. -/
def Routine.depth : Routine → Nat
  | .ret _ | .panic _ => 0
  | .param _ rest => rest.depth
  | .operation _ rest => rest.depth
  | .branch _ yes no => max yes.depth no.depth + 1

theorem Routine.length_go_le (args : Args) (r : Routine) (regs : Registers) (b : Builder) :
    (r.go args regs b).1.2.length ≤ r.depth := by
  induction r generalizing regs b with
  | ret x => exact le_rfl
  | panic text => exact le_rfl
  | param name rest ih =>
      rw [go]
      cases lookupValue name args with
      | none => exact Nat.zero_le _
      | some x => exact ih _ _
  | operation o rest ih => exact ih _ _
  | branch g yes no ihyes ihno =>
      have hrecord := (regs.bool g).length_record_le b
      rw [go_branch, depth]
      dsimp only
      rw [List.length_append]
      split_ifs
      · have hyes := ihyes regs ((regs.bool g).record b).2
        omega
      · have hno := ihno regs ((regs.bool g).record b).2
        omega

/-- A routine records no more decisions than it is deep. -/
theorem Explorer.recordsAtMost_depth {e : Explorer} {r : Routine} (hr : e.target.Follows r) :
    e.RecordsAtMost r.depth := by
  intro m w result t hm hw hb hcall
  obtain ⟨v, hrun⟩ := Invocation.runM_of_call hr hw hcall
  unfold Invocation.runM at hrun
  rw [Build.bind_apply] at hrun
  rcases hbound : (m.bindM e.target.path e.target.params [] w.builder).1 with err | args
  · rw [hbound] at hrun
    cases hrun
  · rw [hbound] at hrun
    have hgo : (r.go args {} (m.bindM e.target.path e.target.params [] w.builder).2).1 = (v, t) := Except.ok.inj hrun
    have hle := r.length_go_le args {} (m.bindM e.target.path e.target.params [] w.builder).2
    rwa [hgo] at hle

/-- The exploration returns and has ended as it should, unless a call that it made failed. -/
def Explorer.Returns (e : Explorer) (o : Oracle σ) (s : Session σ) (post : ExplorationEnd → Prop) : Prop :=
  (∃ fin s', e.explore o s = (.ok fin, s') ∧ post fin) ∨ ∃ err s', e.explore o s = (.error err, s') ∧ e.Breaks o s err

theorem Explorer.returns_of_ends {e : Explorer} {o : Oracle σ} {s : Session σ} {post : ExplorationEnd → Prop}
    (h : ∀ fin s', e.EndsAt o s fin s' → post fin) : e.Returns o s post := by
  obtain ⟨hbreaks, hends⟩ := e.explore_ends o s
  rcases hexplore : e.explore o s with ⟨err | fin, s'⟩
  · exact Or.inr ⟨err, s', hexplore, hbreaks err s' hexplore⟩
  · exact Or.inl ⟨fin, s', hexplore, h fin s' (hends fin s' hexplore)⟩

/-- Without a cap an exploration that is not cancelled goes on until no node is pending: the counter does not come to
its end before. -/
theorem Explorer.pending_eq_zero {e : Explorer} {g : Stage σ} {d : Nat} (hle : g.state.stats.iterations ≤ 2 ^ d)
    (hcap : e.cap = 0) (hd : d < 63) (hstops : e.Stops g false) : g.state.pending = 0 := by
  cases hstops with
  | nothingLeft hwaiting =>
      rw [Exploration.pending, hwaiting]
      rfl
  | limit hlimit =>
      have hbudget : e.budget + 1 = 2 ^ 63 - 1 := by
        rw [Explorer.budget, if_pos hcap]
        decide
      have hpow : 2 ^ d ≤ 2 ^ 62 := Nat.pow_le_pow_right Nat.two_pos (Nat.le_of_lt_succ hd)
      omega

/-- Explorations stop. With a cap there is no endless sequence of rounds, and no more executions than the cap. For a
routine that records at most `d` decisions, there is none without a cap either, and no more than `2 ^ d` executions. An
exploration comes to a result unless a call fails, and rounds end only where nothing is left to do. -/
theorem exploration_stops (e : Explorer) (o : Oracle σ) (s : Session σ) :
    (∀ err, e.Breaks o s err → ∃ m w, m.shape = e.initialInputs.shape ∧ (e.target.call m w).1 = .error err) ∧
    (∀ g, e.Reaches o s g → (∀ g', ¬e.Round o g g') →
      g.state.waiting = [] ∨ e.CapReached g.state ∨ ∃ err, e.Breaks o s err) ∧
    (1 ≤ e.cap → (∀ g, Acc (fun g' g => e.Round o g g') g) ∧
      (∀ g, e.Reaches o s g → g.state.stats.iterations ≤ e.cap) ∧
      e.Returns o s fun fin => fin.result.stats.iterations ≤ e.cap) ∧
    ∀ r d, e.Bounded r o s d →
      (∀ g, e.Reaches o s g → Acc (fun g' g => e.Round o g g') g ∧ g.state.stats.iterations ≤ 2 ^ d) ∧
      (e.Returns o s fun fin => fin.result.stats.iterations ≤ 2 ^ d ∧
        (e.cap = 0 → d < 63 → fin.cancelled = false → fin.result.stats.pending = 0)) ∧
      (r.asks ⊆ e.target.params → ∀ err, ¬e.Breaks o s err) := by
  refine ⟨fun err hbreaks => hbreaks.call, fun g hg hstuck => ?_, fun hpos => ?_, fun r d hd => ?_⟩
  · by_cases hwaiting : g.state.waiting = []
    · exact Or.inl hwaiting
    · by_cases hcap : e.CapReached g.state
      · exact Or.inr (Or.inl hcap)
      · rcases hg.next hcap hwaiting with herr | ⟨g', hround⟩
        · exact Or.inr (Or.inr herr)
        · exact absurd hround (hstuck g')
  · refine ⟨Explorer.acc_of_cap hpos, fun g hg => hg.iterations_le_cap hpos, Explorer.returns_of_ends ?_⟩
    rintro _ s' ⟨g, hg, -, cancelled, rfl, -⟩
    exact hg.iterations_le_cap hpos
  · have hle : ∀ g, e.Reaches o s g → g.state.stats.iterations ≤ 2 ^ d := by
      intro g hg
      have hattempts := hd.attempts_lt hg
      have hiterations := hg.iterations_le
      omega
    refine ⟨fun g hg => ⟨hd.acc hg, hle g hg⟩, Explorer.returns_of_ends ?_, fun hasks err hbreaks => ?_⟩
    · rintro _ s' ⟨g, hg, -, cancelled, rfl, hstops⟩
      refine ⟨hle g hg, fun hcap hsmall hcancelled => ?_⟩
      obtain rfl : cancelled = false := hcancelled
      exact Explorer.pending_eq_zero (hle g hg) hcap hsmall hstops
    · obtain ⟨name, hname, hparam, -⟩ := hd.fails hbreaks
      exact hparam (hasks hname)

/-- Gives prepared answers one after the other, whatever is asked. -/
def Oracle.ofAnswers : Oracle (List Answer) where
  ask _ answers := pure (answers.head?.getD (.error .unknown), answers.tail)

theorem Oracle.ofAnswers_builds : Oracle.ofAnswers.Builds := fun _ _ _ _ _ hb _ _ => ⟨hb, le_rfl⟩

/-- A target that asks for the signs of two arguments takes at most two decisions and has four paths: there are as many
executions as there may be, and with a cap of 3 there are three. -/
theorem exploration_stops_of_two_signs :
    let signs : Routine := .param "x" (.param "y" (.operation (.const 0) (.operation (.compare .lt 0 2)
      (.operation (.compare .lt 1 2) (.branch 0 (.branch 1 (.ret 0) (.ret 1)) (.branch 1 (.ret 1) (.ret 0)))))))
    let e : Explorer := { target := ⟨"signs", ["x", "y"], fun args => signs.run args {}, 0, 0⟩ }
    let capped : Explorer := { e with cap := 3 }
    let negative (name : String) : Answer := .ok (some ⟨[(name, .ofInt64 (-1))]⟩)
    let s : Session (List Answer) :=
      { world := { paths := #[{}] }, oracle := [negative "x", negative "y", negative "y"] }
    e.Bounded signs .ofAnswers s 2 ∧ signs.asks ⊆ e.target.params ∧ 1 ≤ capped.cap ∧
      (∃ fin s', e.explore .ofAnswers s = (.ok fin, s') ∧ fin.cancelled = false ∧
        fin.result.stats.iterations = 2 ^ 2 ∧ fin.result.stats.pending = 0) ∧
      ∃ fin s', capped.explore .ofAnswers s = (.ok fin, s') ∧ fin.result.stats.iterations = 3 ∧
        fin.result.stats.iterations ≤ capped.cap := by
  intro signs e capped negative s
  have hbounded : e.Bounded signs .ofAnswers s 2 :=
    ⟨fun _ => rfl, Oracle.ofAnswers_builds, ⟨by decide, rfl⟩, consistent_empty,
      Explorer.recordsAtMost_depth (r := signs) fun _ => rfl⟩
  have hasks : signs.asks ⊆ e.target.params := by decide
  obtain ⟨-, -, -, hroutine⟩ := exploration_stops e .ofAnswers s
  obtain ⟨-, -, hcapped, -⟩ := exploration_stops capped .ofAnswers s
  obtain ⟨fin, s', hexplore, hcancelled, hfour⟩ : ∃ fin s', e.explore .ofAnswers s = (.ok fin, s') ∧
      fin.cancelled = false ∧ fin.result.stats.iterations = 2 ^ 2 := Engine.exists_of_any (by decide +kernel)
  obtain ⟨fin', s'', hexplore', hthree⟩ : ∃ fin s', capped.explore .ofAnswers s = (.ok fin, s') ∧
      fin.result.stats.iterations = 3 := Engine.exists_of_any (by decide +kernel)
  obtain ⟨-, hreturns, hcalls⟩ := hroutine signs 2 hbounded
  refine ⟨hbounded, hasks, by decide, ⟨fin, s', hexplore, hcancelled, hfour, ?_⟩, fin', s'', hexplore', hthree, ?_⟩
  · rcases hreturns with ⟨_, _, hfin, -, hpending⟩ | ⟨err, _, -, hbreaks⟩
    · cases hexplore.symm.trans hfin
      exact hpending rfl (by decide) hcancelled
    · exact absurd hbreaks (hcalls hasks err)
  · rcases (hcapped (by decide)).2.2 with ⟨_, _, hfin, hle⟩ | ⟨_, _, herr, -⟩
    · cases hexplore'.symm.trans hfin
      exact hle
    · cases hexplore'.symm.trans herr

end Pathwise
