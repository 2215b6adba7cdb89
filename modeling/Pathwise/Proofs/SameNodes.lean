import Pathwise.Proofs.Replay
import Pathwise.Proofs.StaleBranches

/-! The same nodes again. A request made once more, in any later state of its builder, is answered with the same
term. So what a target builds is fixed by the decisions that it has taken: two calls of one target on one builder,
whatever is done with the builder before and between, record the same predicates as long as they decide alike, and
come to the same condition next. On which path a run is recorded makes no difference to its trace
(`Invocation.runM_moved`), so the calls may be those of two invocations.

Inputs that are not symbolic have to have the same values in both calls: these go into the conditions. -/

namespace Pathwise

open Builder

variable {b c : Builder} {k : Ty} {q : Nat}

/-- A request is answered with the same term in every later builder. -/
theorem Request.run_later (hb : b.Consistent) {r : Request k} (hr : r.Operands b.Holds) {t : Term k}
    (h : (r.run b).1 = .ok t) (hc : (r.run b).2.Evolves c) : (r.run c).1 = .ok t := by
  have hrun := r.runs hb hr
  obtain ⟨hconsistent, hle⟩ := hc.runs hrun.consistent
  rw [← h]
  exact (hrun.again c hconsistent hle).1

/-! ### Runs on another path -/

namespace Tracked

/-- The value on another path, if it lies on one. -/
def moved (q : Nat) (x : Tracked k.Value k) : Tracked k.Value k :=
  { x with origin := x.origin.map fun o => ⟨o.term, q⟩ }

theorem path?_moved (q : Nat) (x : Tracked k.Value k) : (x.moved q).path? = x.path?.map fun _ => q := by
  unfold path? moved
  cases x.origin <;> rfl

theorem derive_moved (q : Nat) (v : k.Value) (path : Option Nat) (act : Build (Term k)) (b : Builder) :
    derive v (path.map fun _ => q) act b = ((derive v path act b).1.moved q, (derive v path act b).2) := by
  cases path with
  | none => rfl
  | some p =>
      change (ofTerm v (act b).1 q, (act b).2) = ((ofTerm v (act b).1 p).moved q, (act b).2)
      unfold ofTerm
      split_ifs <;> rfl

end Tracked

theorem SymInt.term_moved (q : Nat) (x : SymInt) : SymInt.term (Tracked.moved (k := .word) q x) = x.term := by
  unfold Tracked.moved SymInt.term
  cases x.origin <;> rfl

theorem SymBool.term_moved (q : Nat) (x : SymBool) : SymBool.term (Tracked.moved (k := .bool) q x) = x.term := by
  unfold Tracked.moved SymBool.term
  cases x.origin <;> rfl

theorem SymBool.record_moved (q : Nat) (x : SymBool) :
    SymBool.record (Tracked.moved (k := .bool) q x) = x.record := by
  unfold Tracked.moved SymBool.record
  cases x.origin <;> rfl

namespace Registers

/-- All values on another path. -/
def moved (q : Nat) (r : Registers) : Registers :=
  ⟨r.ints.map (Tracked.moved (k := .word) q), r.bools.map (Tracked.moved (k := .bool) q)⟩

@[simp] theorem int_moved (q : Nat) (r : Registers) (i : Nat) :
    (r.moved q).int i = Tracked.moved (k := .word) q (r.int i) := by
  unfold Registers.int moved
  rw [List.getElem?_map]
  cases r.ints[i]? <;> rfl

@[simp] theorem bool_moved (q : Nat) (r : Registers) (i : Nat) :
    (r.moved q).bool i = Tracked.moved (k := .bool) q (r.bool i) := by
  unfold Registers.bool moved
  rw [List.getElem?_map]
  cases r.bools[i]? <;> rfl

theorem push_moved (q : Nat) (r : Registers) (x : Tracked k.Value k) :
    (r.moved q).push (x.moved q) = (r.push x).moved q := by
  cases k <;> simp [push, moved]

end Registers

namespace Operation

/-- The result on another path is what comes of the operands on it. -/
theorem run_moved (q : Nat) (r : Registers) (o : Operation k) (b : Builder) :
    o.run (r.moved q) b = ((o.run r b).1.moved q, (o.run r b).2) := by
  have hvalue : o.value (r.moved q) = o.value r := by
    cases o <;> simp only [value, Registers.int_moved, Registers.bool_moved, Tracked.moved]
  have hterm : o.term (r.moved q) = o.term r := by
    cases o <;> simp only [term, Registers.int_moved, Registers.bool_moved, SymInt.term_moved, SymBool.term_moved]
  have hpath : o.path (r.moved q) = (o.path r).map fun _ => q := by
    have hint : ∀ i, Tracked.path? ((r.moved q).int i) = (r.int i).path?.map fun _ => q := fun i => by
      rw [Registers.int_moved]
      exact Tracked.path?_moved (k := .word) q _
    have hbool : ∀ i, Tracked.path? ((r.moved q).bool i) = (r.bool i).path?.map fun _ => q := fun i => by
      rw [Registers.bool_moved]
      exact Tracked.path?_moved (k := .bool) q _
    cases o <;> simp only [path, hint, hbool, Option.map_or, Option.map_none]
  rw [run_eq_derive, run_eq_derive, hvalue, hterm, hpath]
  exact Tracked.derive_moved q _ _ _ b

end Operation

/-- The arguments on another path. -/
def Args.moved (q : Nat) (args : Args) : Args := args.map fun a => (a.1, Tracked.moved (k := .word) q a.2)

theorem Args.lookup_moved (q : Nat) (args : Args) (name : String) :
    lookupValue name (args.moved q) = (lookupValue name args).map (Tracked.moved (k := .word) q) := by
  unfold lookupValue Args.moved
  rw [List.find?_map, Option.map_map, Option.map_map]
  rfl

/-- How a run ends on another path. -/
def movedEnd (q : Nat) (e : Except Stop SymInt × Trace) : Except Stop SymInt × Trace :=
  (e.1.map (Tracked.moved (k := .word) q), e.2)

/-- A run on another path records the same. -/
theorem Routine.go_moved (q : Nat) (args : Args) (r : Routine) : ∀ (regs : Registers) (b : Builder),
    r.go (args.moved q) (regs.moved q) b = (movedEnd q (r.go args regs b).1, (r.go args regs b).2) := by
  induction r with
  | ret x =>
      intro regs b
      change ((Except.ok ((regs.moved q).int x), []), b) = _
      rw [Registers.int_moved]
      rfl
  | panic text => exact fun _ _ => rfl
  | param name rest ih =>
      intro regs b
      rw [go, go, Args.lookup_moved]
      cases lookupValue name args with
      | none => rfl
      | some x =>
          change rest.go (args.moved q) ((regs.moved q).push (k := .word) (Tracked.moved (k := .word) q x)) b = _
          rw [Registers.push_moved]
          exact ih _ b
  | operation o rest ih =>
      intro regs b
      rw [go, go, Build.bind_apply, Build.bind_apply, o.run_moved, Registers.push_moved]
      exact ih _ _
  | branch g yes no ihyes ihno =>
      intro regs b
      rw [go_branch, go_branch, Registers.bool_moved, SymBool.record_moved]
      have hvalue : Tracked.value (Tracked.moved (k := .bool) q (regs.bool g)) = (regs.bool g).value := rfl
      rw [hvalue]
      split_ifs
      · rw [ihyes]
        rfl
      · rw [ihno]
        rfl

theorem Input.track_moved (p q : Nat) (i : Input) (b : Builder) :
    i.track q b = (Tracked.moved (k := .word) q (i.track p b).1, (i.track p b).2) := by
  unfold Input.track
  split_ifs <;> rfl

theorem InputMap.bindM_moved (p q : Nat) (m : InputMap) (params : List String) : ∀ (args : Args) (b : Builder),
    m.bindM q params (args.moved q) b =
      ((m.bindM p params args b).1.map (Args.moved q), (m.bindM p params args b).2) := by
  induction params with
  | nil => exact fun _ _ => rfl
  | cons name params ih =>
      intro args b
      rw [bindM, bindM]
      cases m.find? name with
      | none => rfl
      | some i =>
          dsimp only
          rw [Build.bind_apply, Build.bind_apply, i.track_moved p q]
          have hargs : args.moved q ++ [(name, Tracked.moved (k := .word) q (i.track p b).1)] =
              Args.moved q (args ++ [(name, (i.track p b).1)]) := by
            unfold Args.moved
            rw [List.map_append, List.map_singleton]
          rw [hargs]
          exact ih _ _

namespace Invocation

/-- Invocations of one target on two paths record the same. -/
theorem runM_moved {inv inv' : Invocation} (hparams : inv'.params = inv.params) (r : Routine) (m : InputMap)
    (b : Builder) :
    inv'.runM r m b = ((inv.runM r m b).1.map (movedEnd inv'.path), (inv.runM r m b).2) := by
  unfold runM
  rw [Build.bind_apply, Build.bind_apply, hparams]
  have hbind := m.bindM_moved inv.path inv'.path inv.params [] b
  change m.bindM inv'.path inv.params [] b = _ at hbind
  rw [hbind]
  rcases m.bindM inv.path inv.params [] b with ⟨err | args, b'⟩
  · rfl
  · have hgo := r.go_moved inv'.path args {} b'
    change ((Except.ok (r.go (args.moved inv'.path) (Registers.moved inv'.path {}) b').1,
      (r.go (args.moved inv'.path) (Registers.moved inv'.path {}) b').2) : Except CallError _ × Builder) = _
    rw [hgo]
    rfl

end Invocation

/-! ### Inputs that differ in symbolic values only -/

namespace InputMap

variable {m m' : InputMap} {params : List String}

/-- For every parameter the two maps have no input, or inputs that differ at most in the value of a symbolic one. -/
def AlikeFor (params : List String) (m m' : InputMap) : Prop :=
  ∀ name ∈ params, (m.find? name).map Input.shape = (m'.find? name).map Input.shape

/-- The inputs of the parameters alone, in their order. -/
def restrict (params : List String) (m : InputMap) : InputMap := ⟨params.filterMap m.find?⟩

theorem find?_restrict (m : InputMap) (params : List String) (name : String) :
    (m.restrict params).find? name = if name ∈ params then m.find? name else none := by
  unfold restrict
  change List.find? (·.name == name) (params.filterMap m.find?) = _
  induction params with
  | nil => rfl
  | cons param params ih =>
      by_cases hname : name = param
      · subst hname
        rw [if_pos List.mem_cons_self]
        cases hfind : m.find? name with
        | none =>
            rw [List.filterMap_cons_none hfind, ih, hfind]
            split_ifs <;> rfl
        | some i =>
            rw [List.filterMap_cons_some hfind, List.find?_cons, name_of_find? hfind, beq_self_eq_true]
      · have hmem : name ∈ param :: params ↔ name ∈ params := by simp [hname]
        simp only [hmem]
        cases hfind : m.find? param with
        | none => rw [List.filterMap_cons_none hfind, ih]
        | some i =>
            rw [List.filterMap_cons_some hfind, List.find?_cons, name_of_find? hfind,
              beq_eq_false_iff_ne.mpr (Ne.symm hname)]
            exact ih

theorem AlikeFor.shape_restrict (h : AlikeFor params m m') : (m.restrict params).shape = (m'.restrict params).shape := by
  unfold shape restrict
  rw [List.map_filterMap, List.map_filterMap]
  exact List.filterMap_congr h

/-- Binding parameters looks at their inputs only. -/
theorem bindM_congr {p : Nat} (h : ∀ name ∈ params, m.find? name = m'.find? name) (args : Args) :
    m.bindM p params args = m'.bindM p params args := by
  induction params generalizing args with
  | nil => rfl
  | cons name params ih =>
      rw [List.forall_mem_cons] at h
      rw [bindM, bindM, h.1]
      cases m'.find? name with
      | none => rfl
      | some i =>
          dsimp only
          congr 1
          funext x
          exact ih h.2 _

end InputMap

/-- Traces of coherent runs that decide alike are the same so far, and come to the same condition next. -/
theorem Coherent.agree {e e' : Except Stop SymInt} {t t' : Trace} (h : Coherent (e, t) (e', t')) {n : Nat}
    (hn : n ≤ t.length) (hn' : n ≤ t'.length) (htaken : (t.take n).map (·.taken) = (t'.take n).map (·.taken)) :
    t.take n = t'.take n ∧ t[n]?.map (·.cond) = t'[n]?.map (·.cond) := by
  cases h with
  | same t ends => exact ⟨rfl, rfl⟩
  | apart before d rest rest' =>
      have hle : n ≤ before.length := by
        by_contra hlt
        obtain ⟨j, rfl⟩ : ∃ j, n = before.length + (j + 1) := ⟨n - before.length - 1, by omega⟩
        rw [List.take_length_add_append, List.take_length_add_append, List.take_succ_cons, List.take_succ_cons,
          List.map_append, List.map_append] at htaken
        have hhead : d.taken = d.flip.taken := (List.cons.inj (List.append_cancel_left htaken)).1
        exact Bool.not_ne_self d.taken hhead.symm
      rw [List.take_append_of_le_length hle, List.take_append_of_le_length hle]
      refine ⟨rfl, ?_⟩
      rcases Nat.lt_or_eq_of_le hle with hlt | rfl
      · rw [List.getElem?_append_left hlt, List.getElem?_append_left hlt]
      · rw [List.getElem?_append_right le_rfl, List.getElem?_append_right le_rfl, Nat.sub_self]
        rfl

namespace Invocation

variable {inv inv' : Invocation} {r : Routine} {m m' : InputMap} {e e' : Except Stop SymInt × Trace}

theorem runM_restrict (inv : Invocation) (r : Routine) (m : InputMap) :
    inv.runM r (m.restrict inv.params) = inv.runM r m := by
  have hbind : (m.restrict inv.params).bindM inv.path inv.params [] = m.bindM inv.path inv.params [] :=
    InputMap.bindM_congr (fun name hname => by rw [InputMap.find?_restrict, if_pos hname]) []
  unfold runM
  rw [hbind]

/-- Settled runs of one target are coherent, on whatever paths, if the inputs of the parameters are alike. -/
theorem Settled.coherent_moved (hb : b.Consistent) (h : inv.Settled r b m e) (h' : inv'.Settled r b m' e')
    (hparams : inv'.params = inv.params) (halike : InputMap.AlikeFor inv.params m m') :
    ∃ v, Coherent e (v, e'.2) := by
  have hmoved := runM_moved hparams r m' b
  obtain ⟨hran, htable⟩ := h'
  rw [hmoved] at hran htable
  rcases hrun : (inv.runM r m' b).1 with err | e''
  · rw [hrun] at hran
    cases hran
  · rw [hrun] at hran
    cases hran
    have hfirst : inv.Settled r b (m.restrict inv.params) e :=
      ⟨by rw [runM_restrict, h.ran], by rw [runM_restrict]; exact h.table⟩
    have hsecond : inv.Settled r b (m'.restrict inv.params) e'' :=
      ⟨by rw [runM_restrict, hrun], by rw [runM_restrict]; exact htable⟩
    exact ⟨e''.1, hfirst.coherent hb hsecond halike.shape_restrict⟩

/-- A call that returned ran its routine. -/
theorem runM_of_call (hr : inv.Follows r) {w : World} (hw : w.Ready inv.path) {result : RunResult} {t : Trace}
    (h : (inv.call m w).1 = .ok (result, t)) : ∃ v, (inv.runM r m w.builder).1 = .ok (v, t) := by
  rw [call_eq hr hw] at h
  change Except.bind (inv.runM r m w.builder).1 _ = _ at h
  rcases hrun : (inv.runM r m w.builder).1 with err | ⟨v, u⟩
  · rw [hrun] at h
    cases h
  · rw [hrun] at h
    change (resultOf inv.name v).map (·, u) = _ at h
    rcases hresult : resultOf inv.name v with err | result'
    · rw [hresult] at h
      cases h
    · rw [hresult] at h
      cases h
      exact ⟨v, rfl⟩

end Invocation

/-! ### Calls on one builder -/

/-- What comes later in a world: terms are built and evaluated, values are kept, targets are invoked, and invocations are
called, of targets that may have values of earlier runs at hand. -/
inductive World.Later (w : World) : World → Prop where
  | refl : Later w w
  | build {w' : World} (h : Later w w') {c : Builder} (hc : w'.builder.Evolves c) : Later w { w' with builder := c }
  | keep {w' : World} (h : Later w w') (memory : List (String × SymInt)) : Later w { w' with memory }
  | invoke {w' w'' : World} (h : Later w w') (t : Target) (home : Option Nat) {inv : Invocation}
      (hinv : t.invoke home w' = .ok (inv, w'')) : Later w w''
  | call {w' : World} (h : Later w w') (inv : Invocation) (hpath : inv.path < w'.paths.size) {r : Routine}
      {kept : Registers} (hbody : ∀ args, inv.body args = r.run args kept) (hkept : kept.Held w'.builder)
      (m : InputMap) : Later w (inv.call m w').2

theorem World.Later.spec {w w' : World} (h : w.Later w') (hb : w.builder.Consistent) (hw : w.Quiet) :
    w'.builder.Consistent ∧ w'.Quiet ∧ w.builder ≤ w'.builder := by
  induction h with
  | refl => exact ⟨hb, hw, le_rfl⟩
  | build h hc ih =>
      obtain ⟨hconsistent, hle⟩ := hc.runs ih.1
      exact ⟨hconsistent, ih.2.1, ih.2.2.trans hle⟩
  | keep h memory ih => exact ih
  | invoke h t home hinv ih =>
      obtain rfl := Target.invoke_world hinv
      exact ⟨ih.1, ih.2.1.newPath, ih.2.2⟩
  | @call w' h inv hpath r kept hbody hkept m ih =>
      have hrun := inv.watch_runs r ih.1 hkept m
      rw [Invocation.call_eq_watch hbody ih.2.1 hpath]
      exact ⟨hrun.consistent, ih.2.1, ih.2.2.trans hrun.grows⟩

theorem World.quiet_fresh (b : Builder) : World.Quiet { builder := b } := fun q => by simp [World.path]

/-- Two calls of one target on one builder returned, the second one any time after the first one, each through an
invocation of its own or both through one. -/
inductive CalledTwice (r : Routine) (params : List String) (m m' : InputMap) : Trace → Trace → Prop where
  | intro {scatter : List Nat → Nat} {w w' : World} {inv inv' : Invocation} {result result' : RunResult}
      {t t' : Trace} (hw : World.Later { builder := { scatter } } w) (hpath : inv.path < w.paths.size)
      (hr : inv.Follows r) (hparams : inv.params = params) (hcall : (inv.call m w).1 = .ok (result, t))
      (hw' : (inv.call m w).2.Later w') (hpath' : inv'.path < w'.paths.size) (hr' : inv'.Follows r)
      (hparams' : inv'.params = params) (hcall' : (inv'.call m' w').1 = .ok (result', t')) :
      CalledTwice r params m m' t t'

/-- Both runs can be seen in one builder, where they are coherent. -/
theorem CalledTwice.coherent {r : Routine} {params : List String} {m m' : InputMap} {t t' : Trace}
    (h : CalledTwice r params m m' t t') (halike : InputMap.AlikeFor params m m') :
    ∃ v v', Coherent (v, t) (v', t') := by
  obtain ⟨hw, hpath, hr, rfl, hcall, hw', hpath', hr', hparams', hcall'⟩ := h
  rename_i scatter w w' inv inv' result result'
  obtain ⟨hb, hquiet, -⟩ := hw.spec consistent_empty (World.quiet_fresh _)
  have hready : w.Ready inv.path := ⟨hpath, hquiet _⟩
  obtain ⟨v, hrun⟩ := Invocation.runM_of_call hr hready hcall
  have hrunning := inv.runM_runs r hb m
  rw [Invocation.call_eq hr hready] at hw'
  obtain ⟨hb', hquiet', hle⟩ := hw'.spec hrunning.consistent hquiet
  obtain ⟨v', hrun'⟩ := Invocation.runM_of_call hr' ⟨hpath', hquiet' _⟩ hcall'
  have hrunning' := inv'.runM_runs r hb' m'
  have hfirst := (Invocation.settled_runM hb hrun).mono hrunning.consistent hrunning'.consistent
    (hle.trans hrunning'.grows)
  obtain ⟨v'', hcoherent⟩ := hfirst.coherent_moved hrunning'.consistent (Invocation.settled_runM hb' hrun') hparams'
    halike
  exact ⟨v, v'', hcoherent⟩

/-- The same request in a later builder is answered with the same number. Two calls of one target on one builder, on
inputs that differ in symbolic values only, record predicates with the same keys as long as they decide alike, and
the same condition next, if either of them comes to one. -/
theorem replay_yields_same_nodes :
    (∀ {scatter : List Nat → Nat} {b : Builder}, Evolves { scatter } b → ∀ {k : Ty} (r : Request k) (t : Term k),
      r.Operands b.Holds → (r.run b).1 = .ok t →
        ∀ c, (r.run b).2.Evolves c → ∃ t', (r.run c).1 = .ok t' ∧ t'.id = t.id) ∧
    ∀ {r : Routine} {params : List String} {m m' : InputMap} {t t' : Trace}, CalledTwice r params m m' t t' →
      InputMap.AlikeFor params m m' → ∀ n ≤ t.length, n ≤ t'.length →
        (t.take n).map (·.taken) = (t'.take n).map (·.taken) →
          Trace.keys (t.take n) = Trace.keys (t'.take n) ∧ t[n]?.map (·.cond.id) = t'[n]?.map (·.cond.id) := by
  constructor
  · intro scatter b hb k r t hr h c hc
    exact ⟨t, Request.run_later hb.consistent hr h hc, rfl⟩
  · intro r params m m' t t' h halike n hn hn' htaken
    obtain ⟨v, v', hcoherent⟩ := h.coherent halike
    obtain ⟨htake, hnext⟩ := hcoherent.agree hn hn' htaken
    refine ⟨by rw [htake], ?_⟩
    have := congrArg (Option.map Term.id) hnext
    rwa [Option.map_map, Option.map_map] at this

/-- What a call returned, read off a view of its trace. -/
theorem exists_trace_of_view {ε α : Type} {x : Except ε (RunResult × Trace)} {f : Predicate → α} {l : List α}
    (h : x.toOption.map (·.2.map f) = some l) : ∃ result t, x = .ok (result, t) ∧ t.map f = l := by
  rcases x with err | ⟨result, t⟩
  · cases h
  · exact ⟨result, t, rfl, Option.some.inj h⟩

/-- Two invocations of a target that asks whether its argument is negative and whether it is below 10, called on 5
and on 20: they decide alike once and then come to the same condition. -/
theorem replay_yields_same_nodes_of_two_paths :
    let asking : Routine := .param "x" (.operation (.const 0) (.operation (.const 10) (.operation (.compare .lt 0 1)
      (.operation (.compare .lt 0 2) (.branch 0 (.ret 1) (.branch 1 (.ret 0) (.ret 2)))))))
    let five : InputMap := .ofList [⟨"x", 5, true⟩]
    let twenty : InputMap := .ofList [⟨"x", 20, true⟩]
    InputMap.AlikeFor ["x"] five twenty ∧ ∃ t t', CalledTwice asking ["x"] five twenty t t' ∧
      t.map (·.taken) = [false, true] ∧ t'.map (·.taken) = [false, false] ∧
      Trace.keys (t.take 1) = Trace.keys (t'.take 1) ∧ t[1]?.map (·.cond.id) = t'[1]?.map (·.cond.id) := by
  intro asking five twenty
  let first : Invocation := { name := "f", params := ["x"], body := (asking.run · {}), path := 0, home := 0 }
  let second : Invocation := { first with path := 1 }
  let w : World := { paths := #[{}, {}] }
  have hw : World.Later { builder := { scatter := Term.fingerprintOf } } w :=
    (World.Later.refl.invoke ⟨"f", ["x"], some first.body⟩ (some 0) rfl).invoke ⟨"f", ["x"], some first.body⟩ (some 0)
      rfl
  have halike : InputMap.AlikeFor ["x"] five twenty := by
    unfold InputMap.AlikeFor
    decide
  have hsize : second.path < (first.call five w).2.paths.size := by decide +kernel
  obtain ⟨result, t, hcall, htaken⟩ := exists_trace_of_view (x := (first.call five w).1) (f := (·.taken))
    (l := [false, true]) (by decide +kernel)
  obtain ⟨result', t', hcall', htaken'⟩ := exists_trace_of_view (x := (second.call twenty (first.call five w).2).1)
    (f := (·.taken)) (l := [false, false]) (by decide +kernel)
  have htwice : CalledTwice asking ["x"] five twenty t t' :=
    .intro hw (by decide) (fun _ => rfl) rfl hcall .refl hsize (fun _ => rfl) rfl hcall'
  have hlength : t.length = 2 := by simpa using congrArg List.length htaken
  have hlength' : t'.length = 2 := by simpa using congrArg List.length htaken'
  have hone : (t.take 1).map (·.taken) = (t'.take 1).map (·.taken) := by
    rw [List.map_take, List.map_take, htaken, htaken']
    rfl
  obtain ⟨hkeys, hnext⟩ := replay_yields_same_nodes.2 htwice halike 1 (by omega) (by omega) hone
  exact ⟨halike, t, t', htwice, htaken, htaken', hkeys, hnext⟩

/-- An input that is not symbolic goes into the condition: called with 3 and with 4 for `y`, the question whether `x` is
below `y` is answered alike, by two decisions on different conditions. -/
theorem fixed_inputs_change_conditions :
    let below : Routine := .param "x" (.param "y" (.operation (.compare .lt 0 1) (.branch 0 (.ret 0) (.ret 1))))
    ∃ t t', CalledTwice below ["x", "y"] (.ofList [⟨"x", 0, true⟩, ⟨"y", 3, false⟩])
      (.ofList [⟨"x", 0, true⟩, ⟨"y", 4, false⟩]) t t' ∧
      t.map (·.taken) = [true] ∧ t'.map (·.taken) = [true] ∧ t[0]?.map (·.cond.id) ≠ t'[0]?.map (·.cond.id) := by
  intro below
  let inv : Invocation := { name := "f", params := ["x", "y"], body := (below.run · {}), path := 0, home := 0 }
  let w : World := { paths := #[{}] }
  let m : InputMap := .ofList [⟨"x", 0, true⟩, ⟨"y", 3, false⟩]
  let m' : InputMap := .ofList [⟨"x", 0, true⟩, ⟨"y", 4, false⟩]
  have hw : World.Later { builder := { scatter := Term.fingerprintOf } } w :=
    World.Later.refl.invoke ⟨"f", ["x", "y"], some inv.body⟩ (some 0) rfl
  have hsize : inv.path < (inv.call m w).2.paths.size := by decide +kernel
  obtain ⟨result, t, hcall, hview⟩ := exists_trace_of_view (x := (inv.call m w).1)
    (f := fun d => (d.taken, d.cond.id)) (l := [(true, 3)]) (by decide +kernel)
  obtain ⟨result', t', hcall', hview'⟩ := exists_trace_of_view (x := (inv.call m' (inv.call m w).2).1)
    (f := fun d => (d.taken, d.cond.id)) (l := [(true, 6)]) (by decide +kernel)
  have htwice : CalledTwice below ["x", "y"] m m' t t' :=
    .intro hw (by decide) (fun _ => rfl) rfl hcall .refl hsize (fun _ => rfl) rfl hcall'
  obtain ⟨d, rfl, hd⟩ := List.map_eq_singleton_iff.mp hview
  obtain ⟨d', rfl, hd'⟩ := List.map_eq_singleton_iff.mp hview'
  obtain ⟨htaken, hid⟩ := Prod.mk.inj hd
  obtain ⟨htaken', hid'⟩ := Prod.mk.inj hd'
  refine ⟨[d], [d'], htwice, ?_⟩
  simp [htaken, htaken', hid, hid']

end Pathwise
