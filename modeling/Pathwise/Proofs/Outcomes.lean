import Pathwise.Proofs.Calls

/-! Outcomes. What a routine returns does not depend on the terms that it builds on the way: each operation
computes its value natively, and each branch goes as the value says. `Routine.eval` is the routine on values
alone. In any builder, even one that no builder could have become, a call of an invocation that follows a
routine has the outcome that the values have (`Invocation.outcome_call`), and changes nothing but the builder. -/

namespace Pathwise

open Builder

/-- The values without their terms. -/
def Registers.native (r : Registers) : Registers :=
  ⟨r.ints.map fun x => .const x.value, r.bools.map fun x => .const x.value⟩

/-- The arguments without their terms. -/
def Args.native (args : Args) : Args := args.map fun a => (a.1, .const a.2.value)

/-- The routine on values. -/
def Routine.eval (args : Args) : Routine → Registers → Except Stop Int64
  | .ret x, r => .ok (r.int x).value
  | .panic text, _ => .error (.panic text)
  | .param name rest, r =>
    match lookupValue name args with
    | some x => rest.eval args (r.push (k := .word) (SymInt.const x.value))
    | none => .error (.unknownParameter name)
  | .operation o rest, r => rest.eval args (r.push { value := o.value r })
  | .branch g yes no, r => if (r.bool g).value then yes.eval args r else no.eval args r

/-- The arguments that parameters are bound to, as values. -/
def InputMap.natives (m : InputMap) : List String → Args → Except CallError Args
  | [], args => .ok args
  | name :: names, args =>
    match m.find? name with
    | none => .error (.missingInput name)
    | some i => m.natives names (args ++ [(name, .const i.value)])

/-- The outcome of a call, from values alone. -/
def Invocation.native (inv : Invocation) (r : Routine) (m : InputMap) : Except CallError String := do
  let args ← m.natives inv.params []
  let result ← resultOf inv.name ((r.eval args {}).map SymInt.const)
  return result.outcome

/-! ### Runs -/

namespace Registers

variable (r : Registers) (i : Nat)

@[simp] theorem value_int_native : (r.native.int i).value = (r.int i).value := by
  unfold int native
  rw [List.getElem?_map]
  cases r.ints[i]? <;> rfl

@[simp] theorem value_bool_native : (r.native.bool i).value = (r.bool i).value := by
  unfold bool native
  rw [List.getElem?_map]
  cases r.bools[i]? <;> rfl

theorem native_push {k : Ty} (x : Tracked k.Value k) :
    (r.push x).native = r.native.push { value := x.value } := by
  unfold native
  cases k <;> simp [push, SymInt.const, SymBool.const]

end Registers

theorem Operation.value_native (r : Registers) {k : Ty} (o : Operation k) : o.value r.native = o.value r := by
  cases o <;> simp [Operation.value]

theorem Args.lookup_native (args : Args) (name : String) :
    lookupValue name args.native = (lookupValue name args).map fun x => .const x.value := by
  unfold lookupValue native
  rw [List.find?_map, Option.map_map, Option.map_map]
  rfl

/-- In any builder a run ends with the value that the routine has natively. -/
theorem Routine.value_go (args : Args) (r : Routine) (regs : Registers) (b : Builder) :
    (r.go args regs b).1.1.map (·.value) = r.eval args.native regs.native := by
  induction r generalizing regs b with
  | ret x => exact congrArg Except.ok (regs.value_int_native x).symm
  | panic text => rfl
  | param name rest ih =>
      rw [go, eval, args.lookup_native]
      cases lookupValue name args with
      | none => rfl
      | some x =>
          refine (ih _ _).trans ?_
          rw [Registers.native_push]
          rfl
  | operation o rest ih =>
      rw [eval, o.value_native, ← o.value_run regs b, ← Registers.native_push]
      exact ih _ _
  | branch g yes no ihyes ihno =>
      rw [go_branch, eval, regs.value_bool_native]
      split_ifs
      · exact ihyes _ _
      · exact ihno _ _

/-! ### Calls -/

theorem Args.native_append (args : Args) (name : String) (x : SymInt) :
    Args.native (args ++ [(name, x)]) = args.native ++ [(name, .const x.value)] := List.map_append

theorem Input.value_track (p : Nat) (i : Input) (b : Builder) : (i.track p b).1.value = i.value := by
  unfold track
  split_ifs <;> rfl

theorem InputMap.native_bindM (p : Nat) (m : InputMap) (params : List String) (args : Args) (b : Builder) :
    (m.bindM p params args b).1.map Args.native = m.natives params args.native := by
  induction params generalizing args b with
  | nil => rfl
  | cons name params ih =>
      rw [bindM, natives]
      cases m.find? name with
      | none => rfl
      | some i =>
          change (m.bindM p params (args ++ [(name, (i.track p b).1)]) (i.track p b).2).1.map Args.native =
            m.natives params (args.native ++ [(name, .const i.value)])
          rw [ih, Args.native_append, i.value_track]

namespace Invocation

variable {inv : Invocation} {r : Routine} {w : World}

theorem native_runM (inv : Invocation) (r : Routine) (m : InputMap) (b : Builder) :
    (inv.runM r m b).1.map (fun e => e.1.map (·.value)) =
      (m.natives inv.params []).map fun args => r.eval args {} := by
  have hbind : (m.bindM inv.path inv.params [] b).1.map Args.native = m.natives inv.params [] :=
    m.native_bindM inv.path inv.params [] b
  unfold runM
  rw [Build.bind_apply]
  rcases hargs : (m.bindM inv.path inv.params [] b).1 with err | args
  · rw [hargs] at hbind
    rw [← hbind]
    rfl
  · rw [hargs] at hbind
    rw [← hbind]
    exact congrArg Except.ok (r.value_go args {} _)

/-- The outcome depends on the value only. -/
theorem outcome_resultOf (name : String) (e : Except Stop SymInt) :
    (resultOf name e).map (·.outcome) = (resultOf name ((e.map (·.value)).map SymInt.const)).map (·.outcome) := by
  rcases e with stop | x
  · rfl
  · rfl

/-- In any world in which it can be called, an invocation that follows a routine has its native outcome. -/
theorem outcome_call (hr : inv.Follows r) (hw : w.Ready inv.path) (m : InputMap) :
    (inv.call m w).1.map (·.1.outcome) = inv.native r m := by
  have hrun := inv.native_runM r m w.builder
  rw [call_eq hr hw]
  change ((inv.runM r m w.builder).1.bind fun e => (resultOf inv.name e.1).map (·, e.2)).map (·.1.outcome) = _
  unfold native
  rcases hnatives : m.natives inv.params [] with err | args
  · rw [hnatives] at hrun
    rcases hran : (inv.runM r m w.builder).1 with err' | e
    · rw [hran] at hrun
      cases hrun
      rfl
    · rw [hran] at hrun
      cases hrun
  · rw [hnatives] at hrun
    rcases hran : (inv.runM r m w.builder).1 with err | e
    · rw [hran] at hrun
      cases hrun
    · rw [hran] at hrun
      have hvalue : e.1.map (·.value) = r.eval args {} := Except.ok.inj hrun
      change ((resultOf inv.name e.1).map (·, e.2)).map (·.1.outcome) =
        (resultOf inv.name ((r.eval args {}).map SymInt.const)).map (·.outcome)
      rw [← hvalue, ← outcome_resultOf]
      cases resultOf inv.name e.1 <;> rfl

end Invocation
end Pathwise
