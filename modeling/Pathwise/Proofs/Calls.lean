import Pathwise.Proofs.Inputs
import Pathwise.Proofs.Routine

/-! Calls as computations over the builder. Binding inputs and running a routine on them
changes nothing in the world but the builder (`Invocation.call_eq`), and the trace of the call holds under
its inputs (`Invocation.callM_runs`). -/

namespace Pathwise

open Builder

/-- The value that an input is bound to, as a computation over the builder. -/
def Input.track (path : Nat) (i : Input) : Build SymInt :=
  if i.symbolic then do
    let t ← Build.symbol i.name intWidth
    return { value := i.value, origin := some ⟨t, path⟩ }
  else return SymInt.const i.value

variable {ρ : Valuation} {names : List (String × Nat)} {p : Nat} {b c : Builder}

theorem Input.track_runs (hb : b.Consistent) {i : Input}
    (hi : i.symbolic = true → ρ i.name intWidth = i.value.toBitVec ∧ (i.name, intWidth) ∈ names) :
    Build.Runs (i.track p) b fun x c => x.Sound c ρ names p := by
  unfold track
  split_ifs with hsym
  · obtain ⟨hvalue, hmem⟩ := hi hsym
    refine Build.Runs.bind (Build.symbol_runs hb i.name intWidth) fun t c _ hc ht => Build.Runs.pure hc ?_
    rintro o ⟨⟩
    obtain ⟨hmeans, hsymbol⟩ := ht
    refine ⟨rfl, ?_, hmeans.knows hvalue (List.cons_subset.mpr ⟨hmem, List.nil_subset _⟩)⟩
    rw [hsymbol]
    rfl
  · exact Build.Runs.pure hb (Tracked.sound_of_value (k := .word) i.value)

theorem Input.track_onPath (i : Input) (b : Builder) : Tracked.OnPath (k := .word) p (i.track p b).1 := by
  unfold track
  split_ifs
  · rintro _ ⟨⟩
    rfl
  · exact nofun

theorem World.bind_eq (w : World) (path : Nat) (i : Input) : w.bind path i = w.build (i.track path) := by
  unfold World.bind Input.track
  split_ifs <;> rfl

namespace InputMap

/-- Binding parameters as a computation over the builder. -/
def bindM (path : Nat) (m : InputMap) : List String → Args → Build (Except CallError Args)
  | [], args => return .ok args
  | name :: names, args =>
    match m.find? name with
    | none => return .error (.missingInput name)
    | some i => do
      let x ← i.track path
      m.bindM path names (args ++ [(name, x)])

theorem bindArgs_eq (m : InputMap) (params : List String) (args : Args) (w : World) :
    Invocation.bindArgs p m params args w = w.build (m.bindM p params args) := by
  induction params generalizing args w with
  | nil => rfl
  | cons name names ih =>
      rw [Invocation.bindArgs, bindM]
      cases m.find? name with
      | none => rfl
      | some i =>
          dsimp only
          rw [World.bind_eq, ih]
          rfl

theorem bindM_onPath (m : InputMap) (params : List String) : ∀ {args : Args}, args.OnPath p → ∀ b args',
    (m.bindM p params args b).1 = .ok args' → args'.OnPath p := by
  induction params with
  | nil =>
      rintro args hargs b _ ⟨⟩
      exact hargs
  | cons name params ih =>
      intro args hargs b args' h
      rw [bindM] at h
      cases hfind : m.find? name with
      | none =>
          rw [hfind] at h
          cases h
      | some i =>
          rw [hfind] at h
          exact ih (List.forall_mem_append.mpr ⟨hargs, List.forall_mem_singleton.mpr (i.track_onPath b)⟩) _ _ h

/-- Binding gives every parameter its value, in order, or names the first one that has no input. -/
theorem bindM_runs (m : InputMap) (params : List String) : ∀ {b : Builder} (args : Args), b.Consistent →
    Args.Sound b m.valuation m.symbols p args →
      Build.Runs (m.bindM p params args) b fun res c =>
        (∀ args', res = .ok args' →
          Args.Sound c m.valuation m.symbols p args' ∧ args'.map (·.1) = args.map (·.1) ++ params) ∧
        ∀ e, res = .error e → ∃ name ∈ params, m.find? name = none ∧ e = .missingInput name := by
  induction params with
  | nil =>
      intro b args hb hargs
      refine Build.Runs.pure hb ⟨?_, nofun⟩
      rintro _ ⟨⟩
      exact ⟨hargs, (List.append_nil _).symm⟩
  | cons name params ih =>
      intro b args hb hargs
      rw [bindM]
      cases hfind : m.find? name with
      | none =>
          refine Build.Runs.pure hb ⟨nofun, ?_⟩
          rintro _ ⟨⟩
          exact ⟨name, List.mem_cons_self, hfind, rfl⟩
      | some i =>
          refine Build.Runs.bind (Input.track_runs hb (valuation_of_find? hfind)) fun x c hle hc hx => ?_
          refine (ih _ hc ?_).imp fun res c' _ _ hres => ⟨fun args' hargs' => ?_, fun e he => ?_⟩
          · exact List.forall_mem_append.mpr ⟨hargs.mono hle, List.forall_mem_singleton.mpr hx⟩
          · obtain ⟨hsound, hnames⟩ := hres.1 args' hargs'
            refine ⟨hsound, ?_⟩
            rw [hnames, List.map_append, List.append_assoc]
            rfl
          · obtain ⟨name', hmem, hrest⟩ := hres.2 e he
            exact ⟨name', List.mem_cons_of_mem _ hmem, hrest⟩

end InputMap

/-! ### Calls -/

theorem Target.invoke_eq_ok {t : Target} {home : Nat} {w w' : World} {inv : Invocation}
    (h : t.invoke (some home) w = .ok (inv, w')) : ∃ body, t.body = some body ∧
      inv = ⟨t.name, t.params, body, w.paths.size, home⟩ ∧ w' = w.newPath.2 := by
  unfold invoke at h
  cases hbody : t.body with
  | none =>
      rw [hbody] at h
      cases h
  | some body =>
      rw [hbody] at h
      dsimp only at h
      split_ifs at h
      cases hrepeated : firstRepeated [] t.params with
      | some name =>
          rw [hrepeated] at h
          cases h
      | none =>
          rw [hrepeated] at h
          cases h
          exact ⟨body, rfl, rfl, rfl⟩

/-- No run is going on on the path, and its trace has been taken out. -/
structure World.Ready (w : World) (p : Nat) : Prop where
  exists_path : p < w.paths.size
  drained : w.path p = {}

/-- Only the paths of a world matter for this. -/
theorem World.Ready.of_paths_eq {w w' : World} {p : Nat} (hw : w.Ready p) (h : w'.paths = w.paths) :
    w'.Ready p := by
  refine ⟨h ▸ hw.exists_path, ?_⟩
  rw [World.path, h]
  exact hw.drained

namespace Invocation

/-- The invocation's target is the routine. -/
def Follows (inv : Invocation) (r : Routine) : Prop := ∀ args, inv.body args = r.run args {}

/-- How a run of the routine ends and what it records, as a computation over the builder. -/
def runM (inv : Invocation) (r : Routine) (m : InputMap) :
    Build (Except CallError (Except Stop SymInt × Trace)) := do
  let bound ← m.bindM inv.path inv.params []
  match bound with
  | .error e => return .error e
  | .ok args => return .ok (← r.go args {})

/-- The call of a routine as a computation over the builder. -/
def callM (inv : Invocation) (r : Routine) (m : InputMap) : Build (Except CallError (RunResult × Trace)) := do
  return (← inv.runM r m).bind fun e => (resultOf inv.name e.1).map (·, e.2)

theorem setPath_drained {w : World} (hw : w.Ready p) (b : Builder) (t : Trace) :
    (w.running p b t).setPath p {} = { w with builder := b } := by
  rw [World.setPath_running, ← hw.drained]
  exact World.setPath_self (w := { w with builder := b }) hw.exists_path

/-- A call of an invocation that follows a routine changes nothing but the builder. -/
theorem call_eq {inv : Invocation} {r : Routine} (hr : inv.Follows r) {w : World} (hw : w.Ready inv.path)
    (m : InputMap) : inv.call m w = w.build (inv.callM r m) := by
  have hnone : Args.OnPath inv.path [] := nofun
  have hpath := m.bindM_onPath inv.params hnone w.builder
  unfold call callM runM World.build
  rw [InputMap.bindArgs_eq, World.build, Build.bind_apply, Build.bind_apply]
  rcases hbind : m.bindM inv.path inv.params [] w.builder with ⟨e | args, b⟩
  · rfl
  · rw [hbind] at hpath
    have hbegin : (({ w with builder := b } : World).path inv.path).begin? = some { active := true } := by
      change (w.path inv.path).begin? = _
      rw [hw.drained]
      rfl
    have hrun : r.run args {} (({ w with builder := b } : World).setPath inv.path { active := true }) =
        ((r.go args {} b).1.1, w.running inv.path (r.go args {} b).2 (r.go args {} b).1.2) :=
      Routine.run_eq_go hw.exists_path (hpath args rfl) r (t := []) Registers.forall_empty
    dsimp only
    rw [hbegin]
    dsimp only
    rw [ExceptT.run, hr args, hrun]
    dsimp only
    rw [World.path_running hw.exists_path]
    change (_, (w.running inv.path (r.go args {} b).2 (r.go args {} b).1.2).setPath inv.path {}) = _
    rw [setPath_drained hw]
    rfl

/-- A call answers with the result of its run and the trace. -/
theorem call_of_runM {inv : Invocation} {r : Routine} (hr : inv.Follows r) {w : World} (hw : w.Ready inv.path)
    {m : InputMap} {v : Except Stop SymInt} {t : Trace} {result : RunResult}
    (hrun : (inv.runM r m w.builder).1 = .ok (v, t)) (hresult : resultOf inv.name v = .ok result) :
    (inv.call m w).1 = .ok (result, t) := by
  rw [call_eq hr hw]
  change Except.bind (inv.runM r m w.builder).1 _ = _
  rw [hrun]
  change (resultOf inv.name v).map (·, t) = _
  rw [hresult]
  rfl

/-- What a run ends with: a value that agrees with its term and a trace that holds under the inputs, or the
reason why there is none. -/
structure Ran (inv : Invocation) (r : Routine) (m : InputMap)
    (res : Except CallError (Except Stop SymInt × Trace)) (b : Builder) : Prop where
  ends : ∀ e, res = .ok e → Routine.Ends m.valuation m.symbols inv.path e b
  stopped : ∀ s t, res = .ok (.error s, t) → (∃ text, s = .panic text) ∨
    ∃ name ∈ r.asks, name ∉ inv.params ∧ s = .unknownParameter name
  missing : ∀ e, res = .error e → ∃ name ∈ inv.params, m.find? name = none ∧ e = .missingInput name

/-- What a call ends with: a trace that holds under the inputs and a value that agrees with its term, or the
reason why it failed. -/
structure Called (inv : Invocation) (r : Routine) (m : InputMap) (res : Except CallError (RunResult × Trace))
    (b : Builder) : Prop where
  formed : ∀ a, res = .ok a → a.2.Formed b m.symbols
  holds : ∀ a, res = .ok a → a.2.HoldsFor m.valuation
  value : ∀ a, res = .ok a → a.1.value.Sound b m.valuation m.symbols inv.path
  failed : ∀ e, res = .error e → (∃ name ∈ inv.params, m.find? name = none ∧ e = .missingInput name) ∨
    ∃ name ∈ r.asks, name ∉ inv.params ∧ e = .unknownParameter name

theorem lookup_eq_none {args : Args} {name : String} (h : lookupValue name args = none) :
    name ∉ args.map (·.1) := by
  intro hmem
  obtain ⟨a, ha, rfl⟩ := List.mem_map.mp hmem
  exact List.find?_eq_none.mp (Option.map_eq_none_iff.mp h) a ha (beq_self_eq_true a.1)

theorem runM_runs (inv : Invocation) (r : Routine) (hb : b.Consistent) (m : InputMap) :
    Build.Runs (inv.runM r m) b (inv.Ran r m) := by
  refine Build.Runs.bind (m.bindM_runs inv.params [] hb nofun) fun bound c _ hc hbound => ?_
  cases bound with
  | error e => exact Build.Runs.pure hc ⟨nofun, nofun, by rintro _ ⟨⟩; exact hbound.2 e rfl⟩
  | ok args =>
      obtain ⟨hargs, hnames⟩ := hbound.1 args rfl
      have hgo := r.go_runs hc hargs Registers.forall_empty
      have hend : Build.Runs (r.go args {}) c fun e c' => Routine.Ends m.valuation m.symbols inv.path e c' ∧
          ∀ s, e.1 = .error s → (∃ text, s = .panic text) ∨
            ∃ name ∈ r.asks, lookupValue name args = none ∧ s = .unknownParameter name :=
        ⟨hgo.consistent, hgo.grows, ⟨hgo.post, fun s hs => r.go_end {} c hs⟩, hgo.again⟩
      refine Build.Runs.bind hend fun e c' _ hc' he => Build.Runs.pure hc' ⟨?_, ?_, nofun⟩
      · rintro _ ⟨⟩
        exact he.1
      · rintro s t ⟨⟩
        refine (he.2 s rfl).imp_right fun ⟨name, hasks, hnone, hs⟩ => ⟨name, hasks, ?_, hs⟩
        have := lookup_eq_none hnone
        rwa [hnames] at this

theorem callM_runs (inv : Invocation) (r : Routine) (hb : b.Consistent) (m : InputMap) :
    Build.Runs (inv.callM r m) b (inv.Called r m) := by
  refine Build.Runs.bind (inv.runM_runs r hb m) fun res c _ hc hres => Build.Runs.pure hc ?_
  rcases res with e | ⟨s | x, t⟩
  · exact ⟨nofun, nofun, nofun, by rintro _ ⟨⟩; exact Or.inl (hres.missing e rfl)⟩
  · obtain ⟨-, hformed, hholds⟩ := hres.ends _ rfl
    rcases hres.stopped s t rfl with ⟨text, rfl⟩ | ⟨name, hasks, hparam, rfl⟩
    · exact ⟨by rintro _ ⟨⟩; exact hformed, by rintro _ ⟨⟩; exact hholds,
        by rintro _ ⟨⟩; exact Tracked.sound_of_value (k := .word) 0, nofun⟩
    · exact ⟨nofun, nofun, nofun, by rintro _ ⟨⟩; exact Or.inr ⟨name, hasks, hparam, rfl⟩⟩
  · obtain ⟨hvalue, hformed, hholds⟩ := hres.ends _ rfl
    exact ⟨by rintro _ ⟨⟩; exact hformed, by rintro _ ⟨⟩; exact hholds,
      by rintro _ ⟨⟩; exact hvalue x rfl, nofun⟩

/-- A call returns if every parameter has an input and the routine asks for no others. -/
theorem Called.returns {inv : Invocation} {r : Routine} {m : InputMap}
    {res : Except CallError (RunResult × Trace)} (h : inv.Called r m res b)
    (hinputs : ∀ name ∈ inv.params, m.find? name ≠ none) (hasks : r.asks ⊆ inv.params) : ∃ a, res = .ok a := by
  cases res with
  | ok a => exact ⟨a, rfl⟩
  | error e =>
      rcases h.failed e rfl with ⟨name, hmem, hnone, -⟩ | ⟨name, hmem, hnot, -⟩
      · exact absurd hnone (hinputs name hmem)
      · exact absurd (hasks hmem) hnot

theorem call_returns {inv : Invocation} {r : Routine} (hr : inv.Follows r) {w : World} (hw : w.Ready inv.path)
    (hb : w.builder.Consistent) {m : InputMap} (hinputs : ∀ name ∈ inv.params, m.find? name ≠ none)
    (hasks : r.asks ⊆ inv.params) : ∃ a t w', inv.call m w = (.ok (a, t), w') := by
  obtain ⟨⟨a, t⟩, hres⟩ := (inv.callM_runs r hb m).post.returns hinputs hasks
  rw [call_eq hr hw]
  exact ⟨a, t, _, Prod.ext hres rfl⟩

end Invocation
end Pathwise
