import Pathwise.Proofs.Calls
import Pathwise.Proofs.KeptValues
import Pathwise.Proofs.Substitution

/-! Branches on values of earlier runs. A target may keep integers and truth values of its runs and use them in
later runs, its own or those of other targets. A watched run follows a routine that starts with such values at
hand and lists the values that it branches on, with their marks. What a call does with them is decided by paths
alone: it fails exactly if its run comes to a branch on a symbolic value of another path, and otherwise records
all symbolic branches. Those that no kept symbolic value went into hold under the inputs of the call.

A path is used for many runs, and a result lies on the path of its first symbolic operand. So a value that an
earlier run on the same path left, or one that comes second, is recorded like a value of the run, and its
predicate need not hold. -/

namespace Pathwise

open Builder

variable {ρ : Valuation} {names : List (String × Nat)} {p : Nat} {b c : Builder}

/-! ### Watched runs -/

/-- The value is symbolic and lies on another path. -/
def SymBool.Foreign (p : Nat) (x : SymBool) : Prop := ∃ o, x.origin = some o ∧ o.path ≠ p

instance (x : SymBool) : Decidable (x.Foreign p) :=
  decidable_of_iff (x.origin.any (·.path != p) = true) (by simp [SymBool.Foreign, Option.any_eq_true])

theorem SymBool.onPath_of_not_foreign {x : SymBool} (h : ¬x.Foreign p) : Tracked.OnPath (k := .bool) p x :=
  fun o ho => Decidable.not_not.mp fun hne => h ⟨o, ho, hne⟩

/-- A run as it is watched: how it ends, the values it branches on with their marks, what it records, and the
values at hand when it ends. -/
structure Watch where
  stop : Except Stop SymInt
  branches : List (SymBool × Bool) := []
  trace : Trace := []
  left : Registers

/-- Runs the routine on a path, with marked values at hand. A branch on a symbolic value of another path is
where it stops. -/
def Routine.watch (p : Nat) (args : Args) : Routine → Registers → Marks → Build Watch
  | .ret x, r, _ => return { stop := .ok (r.int x), left := r }
  | .panic text, r, _ => return { stop := .error (.panic text), left := r }
  | .param name rest, r, s =>
    match lookupValue name args with
    | some x => rest.watch p args (r.push (k := .word) x) (s.push .word false)
    | none => return { stop := .error (.unknownParameter name), left := r }
  | .operation (k := k) o rest, r, s => do
    let x ← o.run r
    rest.watch p args (r.push x) (s.push k (o.stale s && x.isSymbolic))
  | .branch g yes no, r, s =>
    let x := r.bool g
    if x.Foreign p then return { stop := .error .inactivePath, branches := [(x, s.stale .bool g)], left := r }
    else do
      let t ← x.record
      let e ← (if x.value then yes.watch p args r s else no.watch p args r s)
      return { e with branches := (x, s.stale .bool g) :: e.branches, trace := t ++ e.trace }

/-- The predicate is the record of a branch on the value, and holds if the value is unmarked. -/
def Predicate.Records (ρ : Valuation) (x : SymBool × Bool) (d : Predicate) : Prop :=
  ∃ o, x.1.origin = some o ∧ d.cond = o.term ∧ d.taken = x.1.value ∧ (x.2 = false → d.HoldsFor ρ)

/-- The trace has one predicate for each symbolic one among the values. -/
def Trace.Records (ρ : Valuation) (branches : List (SymBool × Bool)) (t : Trace) : Prop :=
  List.Forall₂ (Predicate.Records ρ) (branches.filter (·.1.isSymbolic)) t

theorem Trace.Records.append {xs ys : List (SymBool × Bool)} {t u : Trace} (ht : t.Records ρ xs)
    (hu : u.Records ρ ys) : (t ++ u).Records ρ (xs ++ ys) := by
  unfold Records
  rw [List.filter_append]
  exact List.rel_append ht hu

theorem SymBool.record_marked (hb : b.Consistent) {x : SymBool} {v : Bool}
    (hx : Tracked.Marked (k := .bool) b ρ names p x v) :
    Build.Runs x.record b fun t _ => t.Records ρ [(x, v)] := by
  unfold SymBool.record Trace.Records
  cases ho : x.origin with
  | none =>
      rw [List.filter_cons_of_neg (by simp [Tracked.isSymbolic, ho])]
      exact Build.Runs.pure hb .nil
  | some o =>
      rw [List.filter_cons_of_pos (by simp [Tracked.isSymbolic, ho])]
      have hmake : Build.Runs (Predicate.make o.term x.value) b fun d _ => d.Records ρ (x, v) := by
        refine Build.Runs.bind (Build.boolNot_runs hb (hx.1 o ho).2.1) fun n c _ hc _ => Build.Runs.pure hc ?_
        exact ⟨o, ho, rfl, rfl, fun hv => (hx.2 hv o ho).2.2.gives⟩
      exact Build.Runs.bind hmake fun d c _ hc hd => Build.Runs.pure hc (.cons hd .nil)

/-- What a watched run leaves: values over held terms, and a record of its symbolic branches, unless it came to
one on another path. -/
structure Watch.Fair (ρ : Valuation) (p : Nat) (e : Watch) (b : Builder) : Prop where
  left : e.left.Held b
  stops : e.stop = .error .inactivePath ↔ ∃ x ∈ e.branches, x.1.Foreign p
  records : (∀ x ∈ e.branches, ¬x.1.Foreign p) → e.trace.Records ρ e.branches

/-- A run that ends without a branch. -/
theorem Watch.Fair.of_end {r : Registers} (hr : r.Held b) {stop : Except Stop SymInt}
    (hstop : stop ≠ .error .inactivePath) : Watch.Fair ρ p { stop, left := r } b where
  left := hr
  stops := ⟨fun h => absurd h hstop, fun ⟨_, hx, _⟩ => absurd hx List.not_mem_nil⟩
  records _ := .nil

/-- A run that stops at a branch on another path. -/
theorem Watch.Fair.of_foreign {r : Registers} (hr : r.Held b) {x : SymBool × Bool} (hx : x.1.Foreign p) :
    Watch.Fair ρ p { stop := .error .inactivePath, branches := [x], left := r } b where
  left := hr
  stops := ⟨fun _ => ⟨x, List.mem_singleton.mpr rfl, hx⟩, fun _ => rfl⟩
  records hnone := absurd hx (hnone x (List.mem_singleton.mpr rfl))

/-- A run that comes to a branch on its own path, or on a concrete value. -/
theorem Watch.Fair.cons {e : Watch} (he : e.Fair ρ p b) {x : SymBool × Bool} {t : Trace} (hown : ¬x.1.Foreign p)
    (ht : t.Records ρ [x]) :
    Watch.Fair ρ p { e with branches := x :: e.branches, trace := t ++ e.trace } b where
  left := he.left
  stops := by simp [he.stops, hown]
  records hnone := ht.append (he.records (List.forall_mem_cons.mp hnone).2)

theorem World.path_running_of_ne (w : World) {q : Nat} (h : q ≠ p) (t : Trace) :
    (w.running p b t).path q = w.path q := by
  unfold World.running World.setPath World.path
  simp [Ne.symm h]

theorem Exec.branch_foreign {w : World} {t : Trace} {x : SymBool} (hquiet : ∀ q, q ≠ p → (w.path q).active = false)
    (hx : x.Foreign p) : Exec.branch x (w.running p b t) = (.error .inactivePath, w.running p b t) := by
  obtain ⟨o, ho, hpath⟩ := hx
  unfold Exec.branch
  rw [ho]
  dsimp only
  rw [World.path_running_of_ne w hpath, hquiet _ hpath]
  rfl

namespace Routine

section Branch

variable {args : Args} {g : Nat} {yes no : Routine} {r : Registers} {s : Marks}

theorem watch_of_own (h : ¬(r.bool g).Foreign p) :
    (branch g yes no).watch p args r s b =
      let t := (r.bool g).record b
      let e := (if (r.bool g).value then yes else no).watch p args r s t.2
      ({ e.1 with branches := (r.bool g, s.stale .bool g) :: e.1.branches, trace := t.1 ++ e.1.trace }, e.2) := by
  rw [watch, if_neg h]
  split_ifs <;> rfl

theorem watch_of_foreign (h : (r.bool g).Foreign p) :
    (branch g yes no).watch p args r s b =
      ({ stop := .error .inactivePath, branches := [(r.bool g, s.stale .bool g)], left := r }, b) := by
  rw [watch, if_pos h]
  rfl

end Branch

theorem watch_runs {args : Args} (r : Routine) : ∀ {b : Builder} {regs : Registers} {s : Marks}, b.Consistent →
    Args.Sound b ρ names p args → regs.Marked b ρ names p s →
      Build.Runs (r.watch p args regs s) b (Watch.Fair ρ p) := by
  induction r with
  | ret x =>
      intro b regs s hb hargs hregs
      exact Build.Runs.pure hb (.of_end hregs.held nofun)
  | panic text =>
      intro b regs s hb hargs hregs
      exact Build.Runs.pure hb (.of_end hregs.held nofun)
  | param name rest ih =>
      intro b regs s hb hargs hregs
      rw [watch]
      cases hx : lookupValue name args with
      | none => exact Build.Runs.pure hb (.of_end hregs.held nofun)
      | some x =>
          have hsound := hargs.lookup hx
          exact ih hb hargs (hregs.push ⟨hsound.held, fun _ => hsound⟩)
  | operation o rest ih =>
      intro b regs s hb hargs hregs
      rw [watch]
      refine Build.Runs.bind (o.run_marked hb hregs) fun x c hle hc hx => ?_
      exact ih hc (hargs.mono hle) ((hregs.mono hle).push hx)
  | branch g yes no ihyes ihno =>
      intro b regs s hb hargs hregs
      rw [watch]
      by_cases hforeign : (regs.bool g).Foreign p
      · rw [if_pos hforeign]
        exact Build.Runs.pure hb (.of_foreign hregs.held hforeign)
      · rw [if_neg hforeign]
        refine Build.Runs.bind (SymBool.record_marked hb (hregs.bool g)) fun t c hle hc ht => ?_
        have hrest : Build.Runs (if (regs.bool g).value then yes.watch p args regs s else no.watch p args regs s) c
            (Watch.Fair ρ p) := by
          split_ifs
          · exact ihyes hc (hargs.mono hle) (hregs.mono hle)
          · exact ihno hc (hargs.mono hle) (hregs.mono hle)
        exact Build.Runs.bind hrest fun e c' _ hc' he => Build.Runs.pure hc' (he.cons hforeign ht)

/-- Running in a world where no other path is active is the watched run over its builder. -/
theorem run_eq_watch {w : World} (hp : p < w.paths.size) (hquiet : ∀ q, q ≠ p → (w.path q).active = false)
    {args : Args} (r : Routine) : ∀ {b : Builder} {regs : Registers} {s : Marks} {t : Trace},
      r.run args regs (w.running p b t) =
        ((r.watch p args regs s b).1.stop,
          w.running p (r.watch p args regs s b).2 (t ++ (r.watch p args regs s b).1.trace)) := by
  induction r with
  | ret x =>
      intro b regs s t
      change (Except.ok (regs.int x), w.running p b t) = (_, w.running p b (t ++ []))
      rw [List.append_nil]
      rfl
  | panic text =>
      intro b regs s t
      change (Except.error (Stop.panic text), w.running p b t) = (_, w.running p b (t ++ []))
      rw [List.append_nil]
      rfl
  | param name rest ih =>
      intro b regs s t
      rw [run, watch]
      cases hx : lookupValue name args with
      | none =>
          rw [bind_of_error (Args.value_of_none hx _)]
          change _ = (_, w.running p b (t ++ []))
          rw [List.append_nil]
          rfl
      | some x =>
          rw [bind_of_ok (Args.value_of_some hx _)]
          exact ih
  | operation o rest ih =>
      intro b regs s t
      rw [run, bind_of_ok (Exec.build_running _)]
      exact ih
  | branch g yes no ihyes ihno =>
      intro b regs s t
      rw [run]
      by_cases hforeign : (regs.bool g).Foreign p
      · rw [bind_of_error (Exec.branch_foreign hquiet hforeign), watch_of_foreign hforeign, List.append_nil]
      · rw [bind_of_ok (Exec.branch_running hp (SymBool.onPath_of_not_foreign hforeign)), watch_of_own hforeign]
        dsimp only
        split_ifs
        · rw [ihyes, List.append_assoc]
        · rw [ihno, List.append_assoc]

end Routine

/-! ### Calls -/

/-- Between calls no path is active, and nothing is left on one. -/
def World.Quiet (w : World) : Prop := ∀ q, w.path q = {}

namespace Invocation

variable {inv : Invocation} {r : Routine} {kept : Registers} {w : World}

/-- The watched run of a call whose target has kept values at hand. -/
def watch (inv : Invocation) (r : Routine) (kept : Registers) (m : InputMap) : Build (Except CallError Watch) := do
  let bound ← m.bindM inv.path inv.params []
  match bound with
  | .error e => return .error e
  | .ok args => return .ok (← r.watch inv.path args kept kept.marks)

/-- How a call reports a watched run. -/
def report (inv : Invocation) (e : Except CallError Watch) : Except CallError (RunResult × Trace) :=
  e.bind fun e => (resultOf inv.name e.stop).map (·, e.trace)

/-- A call is its watched run, and changes nothing but the builder. -/
theorem call_eq_watch (hbody : ∀ args, inv.body args = r.run args kept) (hw : w.Quiet)
    (hp : inv.path < w.paths.size) (m : InputMap) :
    inv.call m w = (inv.report (inv.watch r kept m w.builder).1,
      { w with builder := (inv.watch r kept m w.builder).2 }) := by
  have hready : w.Ready inv.path := ⟨hp, hw inv.path⟩
  unfold call watch report
  rw [InputMap.bindArgs_eq, World.build, Build.bind_apply]
  rcases hbind : m.bindM inv.path inv.params [] w.builder with ⟨e | args, b⟩
  · rfl
  · have hbegin : (({ w with builder := b } : World).path inv.path).begin? = some { active := true } := by
      change (w.path inv.path).begin? = _
      rw [hready.drained]
      rfl
    have hrun : r.run args kept (({ w with builder := b } : World).setPath inv.path { active := true }) =
        ((r.watch inv.path args kept kept.marks b).1.stop, w.running inv.path
          (r.watch inv.path args kept kept.marks b).2 (r.watch inv.path args kept kept.marks b).1.trace) :=
      Routine.run_eq_watch hp (fun q _ => by rw [hw q]) r (t := [])
    dsimp only
    rw [hbegin]
    dsimp only
    rw [ExceptT.run, hbody args, hrun]
    dsimp only
    rw [World.path_running hp]
    change (_, (w.running inv.path (r.watch inv.path args kept kept.marks b).2
      (r.watch inv.path args kept kept.marks b).1.trace).setPath inv.path {}) = _
    rw [setPath_drained hready]
    rfl

/-- A call that gets to its run leaves it fair; only inputs can be missing before. -/
theorem watch_runs (inv : Invocation) (r : Routine) (hb : b.Consistent) (hkept : kept.Held b) (m : InputMap) :
    Build.Runs (inv.watch r kept m) b fun res c =>
      (∀ e, res = .ok e → e.Fair m.valuation inv.path c) ∧ ∀ e, res = .error e → ∃ name, e = .missingInput name := by
  refine Build.Runs.bind (m.bindM_runs inv.params [] hb nofun) fun bound c hle hc hbound => ?_
  cases bound with
  | error e =>
      obtain ⟨name, -, -, he⟩ := hbound.2 e rfl
      refine Build.Runs.pure hc ⟨nofun, ?_⟩
      rintro _ ⟨⟩
      exact ⟨name, he⟩
  | ok args =>
      have hrun := r.watch_runs hc (hbound.1 args rfl).1 (Registers.Marked.of_held (hkept.mono hle))
      refine Build.Runs.bind hrun fun e c' _ hc' he => Build.Runs.pure hc' ⟨?_, nofun⟩
      rintro _ ⟨⟩
      exact he

theorem resultOf_eq_inactivePath (name : String) {stop : Except Stop SymInt} :
    resultOf name stop = .error .inactivePath ↔ stop = .error .inactivePath := by
  rcases stop with (_ | _ | _) | _ <;> simp [resultOf]

/-- A fair run is reported as an inactive path exactly if it came to a branch on another path. -/
theorem report_eq_inactivePath (inv : Invocation) {e : Watch} (he : e.Fair ρ p b) :
    inv.report (.ok e) = .error .inactivePath ↔ ∃ x ∈ e.branches, x.1.Foreign p := by
  rw [← he.stops, ← resultOf_eq_inactivePath inv.name]
  change (resultOf inv.name e.stop).map (·, e.trace) = _ ↔ _
  cases resultOf inv.name e.stop <;> simp [Except.map]

end Invocation

/-! ### Histories of calls -/

/-- All values of the one are values of the other. -/
def Registers.Within (r s : Registers) : Prop := ∀ k, r.values k ⊆ s.values k

def Registers.append (r s : Registers) : Registers := ⟨r.ints ++ s.ints, r.bools ++ s.bools⟩

theorem Registers.Held.append {r s : Registers} (hr : r.Held b) (hs : s.Held b) : (r.append s).Held b := by
  intro k x hx
  cases k with
  | word => exact (List.mem_append.mp hx).elim (hr .word x) (hs .word x)
  | bool => exact (List.mem_append.mp hx).elim (hr .bool x) (hs .bool x)

/-- The values that a run had at hand when it ended, if it began. -/
def Watch.leftovers : Except CallError Watch → Registers
  | .ok e => e.left
  | .error _ => {}

/-- Invocations over one builder are made and called, in any order. The registers hold all values of the runs so
far; a target may start a run with any of them. -/
inductive CallHistory : World → Registers → Prop where
  | start (scatter : List Nat → Nat) : CallHistory { builder := { scatter } } {}
  | build {w : World} {past : Registers} (h : CallHistory w past) {c : Builder} (hc : w.builder.Evolves c) :
      CallHistory { w with builder := c } past
  | invoke {w w' : World} {past : Registers} (h : CallHistory w past) (t : Target) (home : Option Nat)
      {inv : Invocation} (hinv : t.invoke home w = .ok (inv, w')) : CallHistory w' past
  | call {w : World} {past : Registers} (h : CallHistory w past) (inv : Invocation) (hpath : inv.path < w.paths.size)
      {r : Routine} {kept : Registers} (hbody : ∀ args, inv.body args = r.run args kept) (hkept : kept.Within past)
      (m : InputMap) :
      CallHistory (inv.call m w).2 (past.append (Watch.leftovers (inv.watch r kept m w.builder).1))

theorem Target.invoke_world {t : Target} {home : Option Nat} {w w' : World} {inv : Invocation}
    (h : t.invoke home w = .ok (inv, w')) : w' = w.newPath.2 := by
  unfold Target.invoke at h
  split at h
  · cases h
  · cases h
  · split_ifs at h
    split at h
    · cases h
    · cases h
      rfl

theorem World.Quiet.newPath {w : World} (hw : w.Quiet) : w.newPath.2.Quiet := by
  intro q
  have hq := hw q
  unfold World.path World.newPath at *
  dsimp only
  rw [Array.getElem?_push]
  split_ifs
  · rfl
  · exact hq

/-- After a history of calls the builder is consistent, no path is active, and all past values are over held terms. -/
theorem CallHistory.spec {w : World} {past : Registers} (h : CallHistory w past) :
    w.builder.Consistent ∧ w.Quiet ∧ past.Held w.builder := by
  induction h with
  | start scatter =>
      refine ⟨consistent_empty, fun q => ?_, Registers.forall_empty⟩
      simp [World.path]
  | build h hc ih =>
      obtain ⟨hconsistent, hle⟩ := hc.runs ih.1
      exact ⟨hconsistent, ih.2.1, ih.2.2.mono hle⟩
  | invoke h t home hinv ih =>
      obtain rfl := Target.invoke_world hinv
      exact ⟨ih.1, ih.2.1.newPath, ih.2.2⟩
  | @call w past h inv hpath r kept hbody hkept m ih =>
      obtain ⟨hb, hquiet, hpast⟩ := ih
      have hheld : kept.Held w.builder := fun k x hx => hpast k x (hkept k hx)
      have hrun := inv.watch_runs r hb hheld m
      rw [Invocation.call_eq_watch hbody hquiet hpath]
      refine ⟨hrun.consistent, hquiet, (hpast.mono hrun.grows).append ?_⟩
      cases hres : (inv.watch r kept m w.builder).1 with
      | error e => exact Registers.forall_empty
      | ok e => exact (hrun.post.1 e hres).left

/-- After any history of calls, a call fails for an inactive path exactly if its run comes to a branch on a symbolic
value of another path. If it returns, the trace has one predicate for each symbolic branch of the run, and those
that no symbolic value of an earlier run went into hold under the inputs of the call. -/
theorem calls_record_fresh_branches {w : World} {past : Registers} (h : CallHistory w past) {inv : Invocation}
    (hpath : inv.path < w.paths.size) {r : Routine} {kept : Registers}
    (hbody : ∀ args, inv.body args = r.run args kept) (hkept : kept.Within past) (m : InputMap) :
    ((inv.call m w).1 = .error .inactivePath ↔
      ∃ e, (inv.watch r kept m w.builder).1 = .ok e ∧ ∃ x ∈ e.branches, x.1.Foreign inv.path) ∧
    ∀ result t, (inv.call m w).1 = .ok (result, t) →
      ∃ e, (inv.watch r kept m w.builder).1 = .ok e ∧ t.Records m.valuation e.branches := by
  obtain ⟨hb, hquiet, hpast⟩ := h.spec
  have hheld : kept.Held w.builder := fun k x hx => hpast k x (hkept k hx)
  obtain ⟨hfair, hmissing⟩ := (inv.watch_runs r hb hheld m).post
  rw [Invocation.call_eq_watch hbody hquiet hpath]
  dsimp only
  cases hres : (inv.watch r kept m w.builder).1 with
  | error e =>
      obtain ⟨name, rfl⟩ := hmissing e hres
      exact ⟨⟨nofun, fun ⟨_, he, _⟩ => by cases he⟩, nofun⟩
  | ok e =>
      have hstops := inv.report_eq_inactivePath (hfair e hres)
      refine ⟨hstops.trans ⟨fun hx => ⟨e, rfl, hx⟩, fun ⟨_, he, hx⟩ => by cases he; exact hx⟩, fun result t ht => ?_⟩
      have hnone : ∀ x ∈ e.branches, ¬x.1.Foreign inv.path := by
        intro x hx hforeign
        cases (hstops.mpr ⟨x, hx, hforeign⟩).symm.trans ht
      have htrace : t = e.trace := by
        change (Invocation.resultOf inv.name e.stop).map (·, e.trace) = _ at ht
        cases hresult : Invocation.resultOf inv.name e.stop with
        | error _ =>
            rw [hresult] at ht
            cases ht
        | ok _ =>
            rw [hresult] at ht
            cases ht
            rfl
      exact ⟨e, rfl, htrace ▸ (hfair e hres).records hnone⟩

/-- A run on -5 that has the 5 of an earlier run at hand, and branches on its own argument. -/
theorem calls_record_fresh_branches_of_two_runs :
    let made : World := { paths := #[{}] }
    let asking : Routine := .param "x" (.ret 0)
    let first : Invocation := { name := "first", params := ["x"], body := (asking.run · {}), path := 0, home := 0 }
    let plus : InputMap := .ofList [⟨"x", 5, true⟩]
    let w := (first.call plus made).2
    let past := Registers.append {} (Watch.leftovers (first.watch asking {} plus made.builder).1)
    let signed : Routine :=
      .param "x" (.operation (.const 0) (.operation (.compare .lt 1 2) (.branch 0 (.ret 0) (.ret 1))))
    let second : Invocation := { first with name := "second", body := (signed.run · past) }
    let minus : InputMap := .ofList [⟨"x", -5, true⟩]
    CallHistory w past ∧ second.path < w.paths.size ∧ past.ints.map (·.value) = [5] ∧
      ∃ result t e, (second.call minus w).1 = .ok (result, t) ∧
        (second.watch signed past minus w.builder).1 = .ok e ∧ e.branches.map (·.2) = [false] ∧
        t.Records minus.valuation e.branches := by
  intro made asking first plus w past signed second minus
  have hmade : CallHistory made {} :=
    (CallHistory.start Term.fingerprintOf).invoke ⟨"first", ["x"], some first.body⟩ (some 0) rfl
  have hw : CallHistory w past := hmade.call first (by decide) (fun _ => rfl) (fun _ => List.Subset.refl _) plus
  have hpath : second.path < w.paths.size := by decide +kernel
  have hpast : past.ints.map (·.value) = [5] := by decide +kernel
  have hok : (second.call minus w).1.toBool = true := by decide +kernel
  have hmarks : (second.watch signed past minus w.builder).1.toOption.map (·.branches.map (·.2)) = some [false] := by
    decide +kernel
  obtain ⟨-, hreturns⟩ := calls_record_fresh_branches hw hpath (fun _ => rfl) (fun _ => List.Subset.refl _) minus
  rcases hcall : (second.call minus w).1 with _ | ⟨result, t⟩
  · rw [hcall] at hok
    cases hok
  · obtain ⟨e, he, hrecords⟩ := hreturns result t hcall
    rw [he] at hmarks
    exact ⟨hw, hpath, hpast, result, t, e, rfl, he, Option.some.inj hmarks, hrecords⟩

/-- A script that keeps its argument, 5 in a first run, and starts by asking whether what it kept is positive: the
second run, on -5, records on its path that `x` is positive. -/
theorem reused_path_records_stale_branch :
    let script : Script := [.branch (.compare .gt (.kept "k") (.lit 0)) [.ret (.lit 1)] [],
      .keep "k" (.param "x"), .ret (.param "x")]
    let inv : Invocation := { name := "own", params := ["x"], body := script.run, path := 0, home := 0 }
    let w := (inv.call (.ofList [⟨"x", 5, true⟩]) { paths := #[{}] }).2
    let m : InputMap := .ofList [⟨"x", -5, true⟩]
    ∃ result d, (inv.call m w).1 = .ok (result, [d]) ∧ ¬d.HoldsFor m.valuation := by
  intro script inv w m
  have hfails : (inv.call m w).1.toOption.map (·.2.map fun d => d.cond.holds m.valuation != d.taken) =
      some [true] := by
    decide +kernel
  rcases hcall : (inv.call m w).1 with _ | ⟨result, t⟩
  · rw [hcall] at hfails
    cases hfails
  · rw [hcall] at hfails
    obtain ⟨d, rfl, hd⟩ := List.map_eq_singleton_iff.mp (Option.some.inj hfails)
    exact ⟨result, d, rfl, bne_iff_ne.mp hd⟩

/-- A value of another invocation's run passes as well if it comes second: -1 and the kept 5 make 4, and the term
of their sum is `x + x`. -/
example :
    let first : Invocation :=
      { name := "first", params := ["x"], body := Script.run [.keep "k" (.param "x")], path := 0, home := 0 }
    let second : Invocation := { first with
      path := 1
      body := Script.run [.branch (.compare .gt (.binary .add (.param "x") (.kept "k")) (.lit 0)) [] []] }
    let m : InputMap := .ofList [⟨"x", -1, true⟩]
    let w := (first.call (.ofList [⟨"x", 5, true⟩]) { paths := #[{}, {}] }).2
    (second.call m w).1.toOption.map (·.2.map fun d => d.cond.holds m.valuation != d.taken) = some [true] := by
  decide +kernel

end Pathwise
