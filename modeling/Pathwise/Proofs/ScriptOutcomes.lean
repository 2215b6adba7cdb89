import Pathwise.Catalogue
import Pathwise.Proofs.Counterexamples

/-! Scripts on values. `Script.eval` is what a script computes from the values of its arguments alone. A run of
a script that neither reads nor writes what outlives runs ends as the values do, in any builder, and changes
nothing but the builder and the trace of its path (`Script.run_computes`). The outcome of a call is therefore a
function of its inputs (`Invocation.call_script`), and so it is for every implementation in the catalogue. -/

namespace Pathwise

namespace Script

/-! ### Local scripts -/

mutual
/-- The expression reads nothing that earlier runs have left. -/
def isLocalInt : IntExpr → Bool
  | .lit _ | .param _ | .var _ => true
  | .kept _ => false
  | .unary _ x => isLocalInt x
  | .binary _ x y => isLocalInt x && isLocalInt y
  | .ite c x y => isLocalBool c && isLocalInt x && isLocalInt y
  | .ofBool c => isLocalBool c

def isLocalBool : BoolExpr → Bool
  | .lit _ => true
  | .compare _ x y => isLocalInt x && isLocalInt y
  | .not c => isLocalBool c
  | .join _ c d => isLocalBool c && isLocalBool d
end

mutual
def isLocalStmt : Stmt → Bool
  | .set _ x | .ret x => isLocalInt x
  | .keep _ _ => false
  | .panic _ => true
  | .branch c yes no => isLocalBool c && isLocal yes && isLocal no
  | .loop c _ body => isLocalBool c && isLocal body

/-- The script neither reads nor writes what outlives runs. -/
def isLocal : List Stmt → Bool
  | [] => true
  | s :: ss => isLocalStmt s && isLocal ss
end

/-! ### Values -/

mutual
/-- The value of an integer expression, from the values of the arguments and of the local variables. -/
def evalInt (args : Args) (locals : Locals) : IntExpr → Except Stop Int64
  | .lit v => return v
  | .param name =>
    match lookupValue name args with
    | some x => return x.value
    | none => throw (.unknownParameter name)
  | .var name => return ((lookupValue name locals).getD (.const 0)).value
  | .kept _ => return 0
  | .unary op x => do return op.applyInt (← evalInt args locals x)
  | .binary op x y => do
    let a ← evalInt args locals x
    let b ← evalInt args locals y
    return op.apply a b
  | .ite c x y => do
    let g ← evalBool args locals c
    let a ← evalInt args locals x
    let b ← evalInt args locals y
    return if g then a else b
  | .ofBool c => do
    let g ← evalBool args locals c
    return if g then 1 else 0

def evalBool (args : Args) (locals : Locals) : BoolExpr → Except Stop Bool
  | .lit b => return b
  | .compare op x y => do
    let a ← evalInt args locals x
    let b ← evalInt args locals y
    return op.apply a b
  | .not c => do return !(← evalBool args locals c)
  | .join op c d => do
    let a ← evalBool args locals c
    let b ← evalBool args locals d
    return op.apply a b
end

/-- What a statement leaves, as values. -/
abbrev ValueStep := Locals × Option Int64

def evalRounds (test : Locals → Except Stop Bool) (body : Locals → Except Stop ValueStep) :
    Nat → Locals → Except Stop ValueStep
  | 0, locals => return (locals, none)
  | n + 1, locals => do
    if ← test locals then
      match ← body locals with
      | (locals, some x) => return (locals, some x)
      | (locals, none) => evalRounds test body n locals
    else return (locals, none)

mutual
def evalStmt (args : Args) (locals : Locals) : Stmt → Except Stop ValueStep
  | .set name x => do
    let a ← evalInt args locals x
    return (setValue name (.const a) locals, none)
  | .keep _ x => do
    let _ ← evalInt args locals x
    return (locals, none)
  | .ret x => do
    let a ← evalInt args locals x
    return (locals, some a)
  | .panic text => throw (.panic text)
  | .branch c yes no => do
    let g ← evalBool args locals c
    if g then evalBlock args locals yes else evalBlock args locals no
  | .loop c n body =>
    evalRounds (fun locals => evalBool args locals c) (fun locals => evalBlock args locals body) n locals

def evalBlock (args : Args) (locals : Locals) : List Stmt → Except Stop ValueStep
  | [] => return (locals, none)
  | s :: ss => do
    match ← evalStmt args locals s with
    | (locals, some x) => return (locals, some x)
    | (locals, none) => evalBlock args locals ss
end

/-- The script on values. -/
def eval (s : Script) (args : Args) : Except Stop Int64 := do
  let (_, result) ← evalBlock args [] s
  return result.getD 0

/-- The outcome of a call, from values alone. -/
def native (s : Script) (name : String) (params : List String) (m : InputMap) : Except CallError String := do
  let args ← m.natives params []
  let result ← Invocation.resultOf name ((s.eval args).map SymInt.const)
  return result.outcome

end Script

/-! ### Computations that end as values do -/

/-- Two computations end alike: with related results, or for the same reason. -/
inductive Stop.Alike {α β : Type} (R : α → β → Prop) : Except Stop α → Except Stop β → Prop
  | ok {a : α} {v : β} (h : R a v) : Alike R (.ok a) (.ok v)
  | error (e : Stop) : Alike R (.error e) (.error e)

theorem Stop.Alike.map_eq {α β : Type} {R : α → β → Prop} {f : α → β} {r : Except Stop α} {out : Except Stop β}
    (h : Stop.Alike R r out) (hf : ∀ a v, R a v → f a = v) : r.map f = out := by
  cases h with
  | ok hR => exact congrArg Except.ok (hf _ _ hR)
  | error e => rfl

/-- While the path is running, the computation ends as the values do, and changes nothing but the builder and
the trace. -/
def Exec.Computes {α β : Type} (w : World) (p : Nat) (R : α → β → Prop) (act : Exec α) (out : Except Stop β) :
    Prop :=
  ∀ b t, Stop.Alike R (act (w.running p b t)).1 out ∧ ∃ b' t', (act (w.running p b t)).2 = w.running p b' t'

/-- The tracked value is the given one, and lies on the path. -/
def Tracked.Shows {k : Ty} (p : Nat) (x : Tracked k.Value k) (v : k.Value) : Prop := x.value = v ∧ x.OnPath p

/-- The named values are the given ones, and lie on the path. -/
def Args.Shows (p : Nat) (args vs : Args) : Prop := args.native = vs ∧ args.OnPath p

section Computing

variable {α β γ δ : Type} {R : α → β → Prop} {S : γ → δ → Prop} {w : World} {p : Nat}

namespace Exec.Computes

theorem pure {a : α} {v : β} (h : R a v) : Computes w p R (Pure.pure a) (.ok v) :=
  fun b t => ⟨.ok h, b, t, rfl⟩

theorem throw (e : Stop) : Computes w p R (MonadExcept.throw e) (.error e) :=
  fun b t => ⟨.error e, b, t, rfl⟩

theorem bind {act : Exec α} {out : Except Stop β} {next : α → Exec γ} {next' : β → Except Stop δ}
    (h : Computes w p R act out) (hnext : ∀ a v, R a v → Computes w p S (next a) (next' v)) :
    Computes w p S (act >>= next) (out >>= next') := by
  intro b t
  obtain ⟨halike, b₁, t₁, hworld⟩ := h b t
  rcases hrun : act (w.running p b t) with ⟨r, w₁⟩
  rw [hrun] at halike hworld
  cases halike with
  | ok hR =>
      obtain rfl : w₁ = w.running p b₁ t₁ := hworld
      rw [bind_of_ok hrun]
      exact hnext _ _ hR b₁ t₁
  | error e =>
      rw [bind_of_error hrun]
      exact ⟨.error e, b₁, t₁, hworld⟩

/-- An operation has its native value, on the path of its operands. -/
theorem derive {k : Ty} {v : k.Value} {path : Option Nat} (hpath : ∀ q, path = some q → q = p)
    (act : Build (Term k)) : Computes w p (Tracked.Shows p) (Exec.build (Tracked.derive v path act)) (.ok v) :=
  fun b t => ⟨.ok ⟨Tracked.value_derive v path act b, Tracked.onPath_derive v act b hpath⟩, _, t, rfl⟩

/-- A branch goes as the value says. -/
theorem branch (hp : p < w.paths.size) {x : SymBool} {v : Bool} (hx : Tracked.Shows (k := .bool) p x v) :
    Computes w p Eq (Exec.branch x) (.ok v) := by
  intro b t
  rw [Exec.branch_running hp hx.2, ← hx.1]
  exact ⟨.ok rfl, _, _, rfl⟩

end Exec.Computes

/-! ### Named values -/

namespace Args.Shows

variable {args vs : Args}

theorem lookup (h : args.Shows p vs) (name : String) :
    (lookupValue name args = none ∧ lookupValue name vs = none) ∨
      ∃ x, lookupValue name args = some x ∧ lookupValue name vs = some (.const x.value) ∧
        Tracked.OnPath (k := .word) p x := by
  obtain ⟨rfl, hpath⟩ := h
  rw [args.lookup_native]
  cases hx : lookupValue name args with
  | none => exact Or.inl ⟨rfl, rfl⟩
  | some x => exact Or.inr ⟨x, rfl, rfl, hpath.lookup hx⟩

theorem value (h : args.Shows p vs) (name : String) :
    Exec.Computes w p (Tracked.Shows (k := .word) p) (args.value name)
      (match lookupValue name vs with
        | some x => return x.value
        | none => throw (.unknownParameter name)) := by
  rw [Args.value]
  rcases h.lookup name with ⟨hargs, hvs⟩ | ⟨x, hargs, hvs, hpath⟩
  · rw [hargs, hvs]
    exact .throw _
  · rw [hargs, hvs]
    exact .pure ⟨rfl, hpath⟩

theorem getD (h : args.Shows p vs) (name : String) :
    Tracked.Shows (k := .word) p ((lookupValue name args).getD (.const 0))
      ((lookupValue name vs).getD (.const 0)).value := by
  rcases h.lookup name with ⟨hargs, hvs⟩ | ⟨x, hargs, hvs, hpath⟩
  · rw [hargs, hvs]
    exact ⟨rfl, nofun⟩
  · rw [hargs, hvs]
    exact ⟨rfl, hpath⟩

theorem set (h : args.Shows p vs) {x : SymInt} {v : Int64} (hx : Tracked.Shows (k := .word) p x v)
    (name : String) : Args.Shows p (setValue name x args) (setValue name (.const v) vs) := by
  obtain ⟨rfl, hpath⟩ := h
  obtain ⟨rfl, hx⟩ := hx
  induction args with
  | nil => exact ⟨rfl, List.forall_mem_singleton.mpr hx⟩
  | cons a args ih =>
      obtain ⟨ha, hrest⟩ := List.forall_mem_cons.mp hpath
      obtain ⟨hnative, hset⟩ := ih hrest
      change Args.Shows p (if a.1 = name then (a.1, x) :: args else a :: setValue name x args)
        (if a.1 = name then (a.1, .const x.value) :: Args.native args
          else (a.1, .const a.2.value) :: setValue name (.const x.value) (Args.native args))
      split_ifs
      · exact ⟨rfl, List.forall_mem_cons.mpr ⟨hx, hrest⟩⟩
      · exact ⟨congrArg _ hnative, List.forall_mem_cons.mpr ⟨ha, hset⟩⟩

end Args.Shows
end Computing

/-! ### Scripts -/

namespace Script

variable {w : World} {p : Nat} {args vs locals us : Args}

mutual
theorem int_computes (hargs : args.Shows p vs) (hlocals : Args.Shows p locals us) : ∀ x : IntExpr,
    isLocalInt x = true → Exec.Computes w p (Tracked.Shows (k := .word) p) (int args locals x) (evalInt vs us x)
  | .lit v, _ => by
      rw [int, evalInt]
      exact .pure ⟨rfl, nofun⟩
  | .param name, _ => by
      rw [int, evalInt]
      exact hargs.value name
  | .var name, _ => by
      rw [int, evalInt]
      exact .pure (hlocals.getD name)
  | .unary op x, h => by
      rw [int, evalInt]
      refine (int_computes hargs hlocals x h).bind fun a v ha => ?_
      rw [SymInt.unary_eq_derive, ha.1]
      exact .derive (fun _ => ha.2.path) _
  | .binary op x y, h => by
      obtain ⟨hx, hy⟩ := Bool.and_eq_true_iff.mp h
      rw [int, evalInt]
      refine (int_computes hargs hlocals x hx).bind fun a v ha => ?_
      refine (int_computes hargs hlocals y hy).bind fun a' v' ha' => ?_
      rw [SymInt.binary_eq_derive, ha.1, ha'.1]
      exact .derive (fun _ => ha.2.path_or ha'.2) _
  | .ite c x y, h => by
      obtain ⟨hcx, hy⟩ := Bool.and_eq_true_iff.mp h
      obtain ⟨hc, hx⟩ := Bool.and_eq_true_iff.mp hcx
      rw [int, evalInt]
      refine (bool_computes hargs hlocals c hc).bind fun g q hg => ?_
      refine (int_computes hargs hlocals x hx).bind fun a v ha => ?_
      refine (int_computes hargs hlocals y hy).bind fun a' v' ha' => ?_
      rw [SymInt.ite_eq_derive, hg.1, ha.1, ha'.1]
      refine .derive (fun _ hpath => ?_) _
      rcases Option.or_eq_some_iff.mp hpath with hpath | ⟨-, hpath⟩
      · exact ha.2.path_or ha'.2 hpath
      · exact hg.2.path hpath
  | .ofBool c, h => by
      rw [int, evalInt]
      refine (bool_computes hargs hlocals c h).bind fun g q hg => ?_
      rw [SymInt.ofBool, SymInt.ite_eq_derive, hg.1]
      exact .derive (fun _ => hg.2.path) _

theorem bool_computes (hargs : args.Shows p vs) (hlocals : Args.Shows p locals us) : ∀ c : BoolExpr,
    isLocalBool c = true →
      Exec.Computes w p (Tracked.Shows (k := .bool) p) (bool args locals c) (evalBool vs us c)
  | .lit b, _ => by
      rw [bool, evalBool]
      exact .pure ⟨rfl, nofun⟩
  | .compare op x y, h => by
      obtain ⟨hx, hy⟩ := Bool.and_eq_true_iff.mp h
      rw [bool, evalBool]
      refine (int_computes hargs hlocals x hx).bind fun a v ha => ?_
      refine (int_computes hargs hlocals y hy).bind fun a' v' ha' => ?_
      rw [SymInt.compare_eq_derive, ha.1, ha'.1]
      exact .derive (fun _ => ha.2.path_or ha'.2) _
  | .not c, h => by
      rw [bool, evalBool]
      refine (bool_computes hargs hlocals c h).bind fun g q hg => ?_
      rw [SymBool.not_eq_derive, hg.1]
      exact .derive (fun _ => hg.2.path) _
  | .join op c d, h => by
      obtain ⟨hc, hd⟩ := Bool.and_eq_true_iff.mp h
      rw [bool, evalBool]
      refine (bool_computes hargs hlocals c hc).bind fun g q hg => ?_
      refine (bool_computes hargs hlocals d hd).bind fun g' q' hg' => ?_
      rw [SymBool.join_eq_derive, hg.1, hg'.1]
      exact .derive (fun _ => hg.2.path_or hg'.2) _
end

/-- The variables are the given ones, and so is the returned value, if there is one. -/
def Step.Shows (p : Nat) (s : Step) (v : ValueStep) : Prop :=
  Args.Shows p s.1 v.1 ∧ Option.Rel (Tracked.Shows (k := .word) p) s.2 v.2

/-- After a statement the rest runs on the variables it left, unless it returned. -/
theorem continue_computes {rest : Locals → Exec Step} {rest' : Locals → Except Stop ValueStep}
    (hrest : ∀ {locals us}, Args.Shows p locals us → Exec.Computes w p (Step.Shows p) (rest locals) (rest' us)) :
    ∀ (s : Step) (v : ValueStep), Step.Shows p s v → Exec.Computes w p (Step.Shows p)
      (match s with
        | (locals, some x) => return (locals, some x)
        | (locals, none) => rest locals)
      (match v with
        | (us, some x) => return (us, some x)
        | (us, none) => rest' us)
  | (_, none), (_, none), h => hrest h.1
  | (_, some _), (_, some _), h => .pure h
  | (_, none), (_, some _), h => nomatch h.2
  | (_, some _), (_, none), h => nomatch h.2

theorem rounds_computes {test : Locals → Exec Bool} {test' : Locals → Except Stop Bool}
    {body : Locals → Exec Step} {body' : Locals → Except Stop ValueStep}
    (htest : ∀ {locals us}, Args.Shows p locals us → Exec.Computes w p Eq (test locals) (test' us))
    (hbody : ∀ {locals us}, Args.Shows p locals us → Exec.Computes w p (Step.Shows p) (body locals) (body' us))
    (n : Nat) : ∀ {locals us}, Args.Shows p locals us →
      Exec.Computes w p (Step.Shows p) (rounds test body n locals) (evalRounds test' body' n us) := by
  induction n with
  | zero => exact fun hlocals => .pure ⟨hlocals, .none⟩
  | succ n ih =>
      intro locals us hlocals
      refine (htest hlocals).bind fun g q hg => ?_
      obtain rfl := hg
      cases g with
      | true => exact (hbody hlocals).bind (continue_computes ih)
      | false => exact .pure ⟨hlocals, .none⟩

mutual
theorem stmt_computes (hp : p < w.paths.size) (hargs : args.Shows p vs) : ∀ (s : Stmt),
    isLocalStmt s = true → ∀ {locals us}, Args.Shows p locals us →
      Exec.Computes w p (Step.Shows p) (stmt args locals s) (evalStmt vs us s)
  | .set name x, h, locals, us, hlocals => by
      rw [stmt, evalStmt]
      exact (int_computes hargs hlocals x h).bind fun a v ha => .pure ⟨hlocals.set ha name, .none⟩
  | .ret x, h, locals, us, hlocals => by
      rw [stmt, evalStmt]
      exact (int_computes hargs hlocals x h).bind fun a v ha => .pure ⟨hlocals, .some ha⟩
  | .panic text, _, locals, us, _ => by
      rw [stmt, evalStmt]
      exact .throw _
  | .branch c yes no, h, locals, us, hlocals => by
      obtain ⟨hcyes, hno⟩ := Bool.and_eq_true_iff.mp h
      obtain ⟨hc, hyes⟩ := Bool.and_eq_true_iff.mp hcyes
      rw [stmt, evalStmt]
      refine (bool_computes hargs hlocals c hc).bind fun g q hg => ?_
      change Exec.Computes w p _ _ (Except.ok q >>= fun g => if g then evalBlock vs us yes else evalBlock vs us no)
      refine (Exec.Computes.branch hp hg).bind fun taken g' htaken => ?_
      obtain rfl := htaken
      cases taken with
      | true => exact block_computes hp hargs yes hyes hlocals
      | false => exact block_computes hp hargs no hno hlocals
  | .loop c n body, h, locals, us, hlocals => by
      obtain ⟨hc, hbody⟩ := Bool.and_eq_true_iff.mp h
      rw [stmt, evalStmt]
      refine rounds_computes (fun hlocals => ?_) (block_computes hp hargs body hbody) n hlocals
      -- on values the test is the condition alone, and taking the branch adds nothing to it
      rw [← bind_pure (evalBool _ _ _)]
      exact (bool_computes hargs hlocals c hc).bind fun g q hg => .branch hp hg

theorem block_computes (hp : p < w.paths.size) (hargs : args.Shows p vs) : ∀ (s : List Stmt),
    isLocal s = true → ∀ {locals us}, Args.Shows p locals us →
      Exec.Computes w p (Step.Shows p) (block args locals s) (evalBlock vs us s)
  | [], _, locals, us, hlocals => by
      rw [block, evalBlock]
      exact .pure ⟨hlocals, .none⟩
  | s :: ss, h, locals, us, hlocals => by
      obtain ⟨hs, hss⟩ := Bool.and_eq_true_iff.mp h
      rw [block, evalBlock]
      exact (stmt_computes hp hargs s hs hlocals).bind (continue_computes (block_computes hp hargs ss hss))
end

/-- While its path is running, a local script ends as its values do. -/
theorem run_computes {s : Script} (hs : isLocal s = true) (hp : p < w.paths.size) (hargs : args.Shows p vs) :
    Exec.Computes w p (Tracked.Shows (k := .word) p) (s.run args) (s.eval vs) := by
  have hnone : Args.Shows p [] [] := ⟨rfl, nofun⟩
  refine (block_computes hp hargs s hs hnone).bind fun step v hstep => .pure ?_
  obtain ⟨-, hret⟩ := hstep
  rcases step with ⟨locals, x⟩
  rcases v with ⟨us, y⟩
  cases hret with
  | none => exact ⟨rfl, nofun⟩
  | some hx => exact hx

example : eval (Catalogue.euclid 4) [("a", .const 12), ("b", .const (-18))] = .ok (-6) := by decide +kernel

end Script

/-! ### Calls -/

namespace Invocation

variable {inv : Invocation} {w : World} {m : InputMap}

theorem call_of_missing {e : CallError} {b : Builder}
    (hbind : m.bindM inv.path inv.params [] w.builder = (.error e, b)) :
    inv.call m w = (.error e, { w with builder := b }) := by
  rw [call, InputMap.bindArgs_eq, World.build, hbind]

/-- A call whose body changes nothing but the builder and the trace. -/
theorem call_of_run (hw : w.Ready inv.path) {args : Args} {b b' : Builder} {t : Trace} {r : Except Stop SymInt}
    (hbind : m.bindM inv.path inv.params [] w.builder = (.ok args, b))
    (hrun : inv.body args (w.running inv.path b []) = (r, w.running inv.path b' t)) :
    inv.call m w = ((resultOf inv.name r).map (·, t), { w with builder := b' }) := by
  have hbegin : (({ w with builder := b } : World).path inv.path).begin? = some { active := true } := by
    change (w.path inv.path).begin? = _
    rw [hw.drained]
    rfl
  rw [call, InputMap.bindArgs_eq, World.build, hbind]
  dsimp only
  rw [hbegin]
  dsimp only
  rw [World.running] at hrun
  rw [ExceptT.run, hrun]
  dsimp only
  rw [World.path_running hw.exists_path]
  change (_, (w.running inv.path b' t).setPath inv.path {}) = _
  rw [setPath_drained hw]
  rfl

/-- In any world in which it can be called, a local script has its native outcome, and leaves everything but the
builder as it was. -/
theorem call_script {s : Script} (hbody : inv.body = s.run) (hs : Script.isLocal s = true)
    (hw : w.Ready inv.path) (m : InputMap) :
    (inv.call m w).1.map (·.1.outcome) = s.native inv.name inv.params m ∧
      ∃ b, (inv.call m w).2 = { w with builder := b } := by
  have hnone : Args.OnPath inv.path [] := nofun
  have hpath := m.bindM_onPath inv.params hnone w.builder
  have hnatives : (m.bindM inv.path inv.params [] w.builder).1.map Args.native = m.natives inv.params [] :=
    m.native_bindM inv.path inv.params [] w.builder
  rw [Script.native, ← hnatives]
  rcases hbind : m.bindM inv.path inv.params [] w.builder with ⟨e | args, b⟩
  · rw [call_of_missing hbind]
    exact ⟨rfl, b, rfl⟩
  · rw [hbind] at hpath
    obtain ⟨halike, b', t, hworld⟩ :=
      Script.run_computes hs hw.exists_path ⟨rfl, hpath args rfl⟩ b []
    rw [← hbody] at halike hworld
    rw [call_of_run hw hbind (Prod.ext rfl hworld)]
    refine ⟨?_, b', rfl⟩
    change ((resultOf inv.name (inv.body args (w.running inv.path b [])).1).map (·, t)).map (·.1.outcome) =
      (resultOf inv.name ((s.eval args.native).map SymInt.const)).map (·.outcome)
    rw [← halike.map_eq fun _ _ hx => hx.1, ← outcome_resultOf]
    cases resultOf inv.name (inv.body args (w.running inv.path b [])).1 <;> rfl

/-- A local script is deterministic wherever it can be called. -/
theorem deterministic_of_local {fit : World → Prop}
    (hbuild : ∀ (w : World) (b : Builder), fit w → fit { w with builder := b })
    (hready : ∀ w, fit w → w.Ready inv.path) {s : Script} (hbody : inv.body = s.run) (hs : Script.isLocal s = true) :
    inv.Deterministic fit := by
  refine deterministic_of_build hbuild (fun m w w' hw hw' => ?_) fun m w hw => ?_
  · rw [(call_script hbody hs (hready w hw) m).1, (call_script hbody hs (hready w' hw') m).1]
  · obtain ⟨b, hb⟩ := (call_script hbody hs (hready w hw) m).2
    rw [hb]
    exact hbuild w b hw

end Invocation

theorem Checker.deterministic_of_local {σ : Type} {c : Checker} {s s' : Script} (hbody : c.reference.body = s.run)
    (hbody' : c.candidate.body = s'.run) (hs : Script.isLocal s = true) (hs' : Script.isLocal s' = true)
    (o : Oracle σ) : c.Deterministic o c.Callable :=
  deterministic_of_build callable_build (Invocation.deterministic_of_local callable_build (fun _ hw => hw.1) hbody hs)
    (Invocation.deterministic_of_local callable_build (fun _ hw => hw.2) hbody' hs') o

/-- Nothing in the catalogue uses what outlives runs. -/
theorem Catalogue.isLocal_of_mem : ∀ p ∈ Catalogue.programs, Script.isLocal p.reference = true ∧
    ∀ v ∈ p.variants, Script.isLocal v.script = true := by
  decide

end Pathwise
