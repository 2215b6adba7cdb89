import Pathwise.Invocation
import Pathwise.Proofs.Recording

/-! Targets that look at their arguments only through operations and branches. A routine is such a target
as a tree: it asks for parameters, performs operations, branches, and ends with a value or a panic. What it
does beside taking branches is fixed, and the tree is finite because the target ends on every input.

A run changes nothing but the builder and the trace of its path: `Routine.go` is the run as a computation over
the builder alone, and `Routine.run_eq_go` says that the run in a world is that computation. Of every run it
follows that the recorded decisions hold under the inputs. -/

namespace Pathwise

open Builder

/-- A target that inspects its arguments by operations and branches only. Registers are numbered from 0 in
the order in which they are filled, parameters and results of operations alike. -/
inductive Routine where
  | ret (x : Nat)
  | panic (text : String)
  | param (name : String) (rest : Routine)
  | operation {k : Ty} (o : Operation k) (rest : Routine)
  | branch (g : Nat) (yes no : Routine)

namespace Routine

/-- Runs the routine on arguments. -/
def run (args : Args) : Routine → Registers → Exec SymInt
  | .ret x, r => return r.int x
  | .panic text, _ => throw (.panic text)
  | .param name rest, r => do
    let x ← args.value name
    rest.run args (r.push (k := .word) x)
  | .operation o rest, r => do
    let x ← Exec.build (o.run r)
    rest.run args (r.push x)
  | .branch g yes no, r => do if ← Exec.branch (r.bool g) then yes.run args r else no.run args r

/-- The run as a computation over the builder: how it ends, and what it records. -/
def go (args : Args) : Routine → Registers → Build (Except Stop SymInt × Trace)
  | .ret x, r => return (.ok (r.int x), [])
  | .panic text, _ => return (.error (.panic text), [])
  | .param name rest, r =>
    match lookupValue name args with
    | some x => rest.go args (r.push (k := .word) x)
    | none => return (.error (.unknownParameter name), [])
  | .operation o rest, r => do
    let x ← o.run r
    rest.go args (r.push x)
  | .branch g yes no, r => do
    let s ← (r.bool g).record
    let e ← (if (r.bool g).value then yes.go args r else no.go args r)
    return (e.1, s ++ e.2)

theorem go_branch (args : Args) (g : Nat) (yes no : Routine) (r : Registers) (b : Builder) :
    (branch g yes no).go args r b =
      let e := (if (r.bool g).value then yes else no).go args r ((r.bool g).record b).2
      ((e.1.1, ((r.bool g).record b).1 ++ e.1.2), e.2) := by
  rw [go, Build.bind_apply]
  split_ifs <;> rfl

/-- The parameters that the routine may ask for. -/
def asks : Routine → List String
  | .ret _ | .panic _ => []
  | .param name rest => name :: rest.asks
  | .operation _ rest => rest.asks
  | .branch _ yes no => yes.asks ++ no.asks

end Routine

variable {ρ : Valuation} {names : List (String × Nat)} {p : Nat} {b c : Builder}

section

variable {args : Args} {name : String}

theorem Args.value_of_none (h : lookupValue name args = none) (w : World) :
    args.value name w = (.error (.unknownParameter name), w) := by
  rw [Args.value, h]
  rfl

theorem Args.value_of_some {x : SymInt} (h : lookupValue name args = some x) (w : World) :
    args.value name w = (.ok x, w) := by
  rw [Args.value, h]
  rfl

end

/-- Every argument agrees with its term. -/
def Args.Sound (b : Builder) (ρ : Valuation) (names : List (String × Nat)) (p : Nat) (args : Args) : Prop :=
  ∀ a ∈ args, a.2.Sound b ρ names p

theorem Args.Sound.mono (h : b ≤ c) {args : Args} (hargs : Args.Sound b ρ names p args) :
    Args.Sound c ρ names p args :=
  fun a ha => (hargs a ha).mono h

/-- Every symbolic argument lies on the path. -/
def Args.OnPath (p : Nat) (args : Args) : Prop := ∀ a ∈ args, Tracked.OnPath (k := .word) p a.2

theorem Args.OnPath.lookup {args : Args} (hargs : args.OnPath p) {name : String} {x : SymInt}
    (h : lookupValue name args = some x) : Tracked.OnPath (k := .word) p x := by
  obtain ⟨a, ha, rfl⟩ := Option.map_eq_some_iff.mp h
  exact hargs a (List.mem_of_find?_eq_some ha)

theorem Args.Sound.lookup {args : Args} (hargs : Args.Sound b ρ names p args) {name : String} {x : SymInt}
    (h : lookupValue name args = some x) : x.Sound b ρ names p := by
  obtain ⟨a, ha, rfl⟩ := Option.map_eq_some_iff.mp h
  exact hargs a (List.mem_of_find?_eq_some ha)

namespace Routine

/-- The end of a run agrees with its term, and its trace holds. -/
def Ends (ρ : Valuation) (names : List (String × Nat)) (p : Nat) (e : Except Stop SymInt × Trace) (b : Builder) :
    Prop :=
  (∀ x, e.1 = .ok x → x.Sound b ρ names p) ∧ e.2.Formed b names ∧ e.2.HoldsFor ρ

theorem go_runs {args : Args} (r : Routine) : ∀ {b : Builder} {regs : Registers}, b.Consistent →
    Args.Sound b ρ names p args → regs.Sound b ρ names p →
      Build.Runs (r.go args regs) b (Ends ρ names p) := by
  induction r with
  | ret x =>
      intro b regs hb hargs hregs
      refine Build.Runs.pure hb ⟨?_, nofun, nofun⟩
      rintro _ ⟨⟩
      exact hregs.int x
  | panic text =>
      intro b regs hb hargs hregs
      exact Build.Runs.pure hb ⟨nofun, nofun, nofun⟩
  | param name rest ih =>
      intro b regs hb hargs hregs
      rw [go]
      cases hx : lookupValue name args with
      | none => exact Build.Runs.pure hb ⟨nofun, nofun, nofun⟩
      | some x => exact ih hb hargs (hregs.push (hargs.lookup hx))
  | operation o rest ih =>
      intro b regs hb hargs hregs
      rw [go]
      refine Build.Runs.bind (o.run_runs hb hregs) fun x c hle hc hx => ?_
      exact ih hc (hargs.mono hle) ((hregs.mono hle).push hx)
  | branch g yes no ihyes ihno =>
      intro b regs hb hargs hregs
      rw [go]
      refine Build.Runs.bind (SymBool.record_runs hb (hregs.bool g)) fun s c hle hc hs => ?_
      have hrest : Build.Runs (if (regs.bool g).value then yes.go args regs else no.go args regs) c
          (Ends ρ names p) := by
        split_ifs
        · exact ihyes hc (hargs.mono hle) (hregs.mono hle)
        · exact ihno hc (hargs.mono hle) (hregs.mono hle)
      refine Build.Runs.bind hrest fun e c' hle' hc' he => Build.Runs.pure hc' ⟨he.1, ?_, ?_⟩
      · exact List.forall_mem_append.mpr ⟨hs.1.mono hle', he.2.1⟩
      · exact List.forall_mem_append.mpr ⟨hs.2, he.2.2⟩

/-- A run on active paths ends with a value, a panic, or a parameter that does not exist. -/
theorem go_end {args : Args} (r : Routine) (regs : Registers) (b : Builder) {e : Stop}
    (h : (r.go args regs b).1.1 = .error e) :
    (∃ text, e = .panic text) ∨
      ∃ name ∈ r.asks, lookupValue name args = none ∧ e = .unknownParameter name := by
  induction r generalizing regs b with
  | ret x => cases h
  | panic text =>
      cases h
      exact Or.inl ⟨text, rfl⟩
  | param name rest ih =>
      rw [go] at h
      cases hx : lookupValue name args with
      | none =>
          rw [hx] at h
          cases h
          exact Or.inr ⟨name, List.mem_cons_self, hx, rfl⟩
      | some x =>
          rw [hx] at h
          exact (ih _ _ h).imp_right fun ⟨n, hn, hrest⟩ => ⟨n, List.mem_cons_of_mem _ hn, hrest⟩
  | operation o rest ih => exact ih _ _ h
  | branch g yes no ihyes ihno =>
      rw [go_branch] at h
      split_ifs at h
      · exact (ihyes _ _ h).imp_right fun ⟨n, hn, hrest⟩ => ⟨n, List.mem_append_left _ hn, hrest⟩
      · exact (ihno _ _ h).imp_right fun ⟨n, hn, hrest⟩ => ⟨n, List.mem_append_right _ hn, hrest⟩

/-- Running in a world is running over its builder, with the record added to the path. -/
theorem run_eq_go {w : World} (hp : p < w.paths.size) {args : Args} (hargs : args.OnPath p) (r : Routine) :
    ∀ {b : Builder} {regs : Registers} {t : Trace}, regs.OnPath p →
      r.run args regs (w.running p b t) =
        ((r.go args regs b).1.1, w.running p (r.go args regs b).2 (t ++ (r.go args regs b).1.2)) := by
  induction r with
  | ret x =>
      intro b regs t hregs
      change (Except.ok (regs.int x), w.running p b t) = (_, w.running p b (t ++ []))
      rw [List.append_nil]
      rfl
  | panic text =>
      intro b regs t hregs
      change (Except.error (Stop.panic text), w.running p b t) = (_, w.running p b (t ++ []))
      rw [List.append_nil]
      rfl
  | param name rest ih =>
      intro b regs t hregs
      rw [run, go]
      cases hx : lookupValue name args with
      | none =>
          rw [bind_of_error (Args.value_of_none hx _)]
          change _ = (_, w.running p b (t ++ []))
          rw [List.append_nil]
          rfl
      | some x =>
          rw [bind_of_ok (Args.value_of_some hx _)]
          exact ih (hregs.push (hargs.lookup hx))
  | operation o rest ih =>
      intro b regs t hregs
      rw [run, bind_of_ok (Exec.build_running _)]
      exact ih (hregs.push (o.run_onPath hregs b))
  | branch g yes no ihyes ihno =>
      intro b regs t hregs
      rw [run, bind_of_ok (Exec.branch_running hp (hregs.bool g)), go_branch]
      split_ifs with hg
      · rw [ihyes hregs, List.append_assoc]
      · rw [ihno hregs, List.append_assoc]

end Routine
end Pathwise
