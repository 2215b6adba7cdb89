import Pathwise.Proofs.ScriptOutcomes

/-! The life of a path. A path is inactive and empty, or active with the predicates of a run. `World.Extends` says of a
change of the world what it adds to the trace of a path, with the activity of the path left alone; bindings, branches
and whole runs of targets are such changes. From this follow the laws of a path under any operations on it, and those
of an invocation under any calls: a call that was not begun inside another one finds its path empty, records what its
own run branches on, and leaves the path empty, however the run ends.

A target is a `Procedure`: it asks for parameters, builds terms, branches and uses what outlives runs, and what it does
next may depend on all that it has seen. That a parameter or a branch is refused is seen as well: a target may end there
or go on. Every script is a procedure, one that ends there. -/

namespace Pathwise

variable {p : Nat} {w w' : World} {t u : Trace}

/-! ### What changes add to a trace -/

/-- What a branch on the value is to leave on the path. -/
def SymBool.recordOn (p : Nat) (x : SymBool) (b : Builder) : Trace :=
  match x.origin with
  | none => []
  | some o => if o.path = p then [(Predicate.make o.term x.value b).1] else []

/-- What a branch leaves on the path: nothing if it is refused. -/
def Exec.logged (p : Nat) (x : SymBool) (w : World) : Trace :=
  match (Exec.branch x w).1 with
  | .ok _ => x.recordOn p w.builder
  | .error _ => []

/-- The change adds predicates to the trace of the path and leaves its activity alone. -/
structure World.Extends (p : Nat) (w : World) (t : Trace) (w' : World) : Prop where
  size : w'.paths.size = w.paths.size
  path : w'.path p = { active := (w.path p).active, trace := (w.path p).trace ++ t }

namespace World.Extends

theorem of_paths_eq (h : w'.paths = w.paths) : Extends p w [] w' := by
  refine ⟨by rw [h], ?_⟩
  rw [World.path, h, List.append_nil]
  rfl

theorem trans {w'' : World} (h : Extends p w t w') (h' : Extends p w' u w'') : Extends p w (t ++ u) w'' := by
  refine ⟨h'.size.trans h.size, ?_⟩
  rw [h'.path, h.path, List.append_assoc]

theorem build {α : Type} (act : Build α) (w : World) : Extends p w [] (w.build act).2 := of_paths_eq rfl

theorem bind (q : Nat) (i : Input) (w : World) : Extends p w [] (w.bind q i).2 := by
  rw [World.bind_eq]
  exact build _ w

/-- A branch adds what it logs. -/
theorem branch (x : SymBool) (w : World) : Extends p w (Exec.logged p x w) (Exec.branch x w).2 := by
  unfold Exec.logged Exec.branch SymBool.recordOn
  cases ho : x.origin with
  | none => exact of_paths_eq rfl
  | some o =>
      dsimp only
      by_cases hactive : (w.path o.path).active = true
      · rw [if_pos hactive]
        refine ⟨World.size_setPath _ _, ?_⟩
        by_cases hpath : o.path = p
        · subst hpath
          have hp : o.path < (w.build (Predicate.make o.term x.value)).2.paths.size := World.lt_size_of_active hactive
          dsimp only
          rw [if_pos rfl, World.path_setPath_self hp]
          rfl
        · dsimp only
          rw [if_neg hpath, World.path_setPath_of_ne hpath, List.append_nil]
          rfl
      · rw [if_neg hactive]
        exact of_paths_eq rfl

end World.Extends

/-- A branch on a value of a path that is not active is refused, and changes nothing. -/
theorem Exec.branch_inactive {x : SymBool} (hx : Tracked.OnPath (k := .bool) p x) (hp : (w.path p).active = false) :
    (Exec.branch x w).2 = w ∧ (x.isSymbolic = true → (Exec.branch x w).1 = .error .inactivePath) := by
  unfold Exec.branch Tracked.isSymbolic
  cases ho : x.origin with
  | none => exact ⟨rfl, fun h => absurd h (by decide)⟩
  | some o =>
      obtain rfl := hx o ho
      dsimp only
      rw [hp]
      exact ⟨rfl, fun _ => rfl⟩

theorem Exec.logged_inactive (x : SymBool) (hp : (w.path p).active = false) : Exec.logged p x w = [] := by
  unfold Exec.logged Exec.branch SymBool.recordOn
  cases ho : x.origin with
  | none => rfl
  | some o =>
      dsimp only
      by_cases hpath : o.path = p
      · rw [hpath, hp]
        rfl
      · rw [if_neg hpath]
        split <;> rfl

/-! ### Operations on a path -/

inductive PathOp where
  | begin
  | bind (i : Input)
  | branch (x : SymBool)
  | drain

/-- What an operation answers. -/
inductive PathReply where
  | begun (accepted : Bool)
  | bound (x : SymInt)
  | taken (r : Except Stop Bool)
  | drained (t : Trace)

namespace PathOp

/-- Carries the operation out on a path. -/
def run (p : Nat) : PathOp → World → PathReply × World
  | .begin, w =>
    match (w.path p).begin? with
    | some path => (.begun true, w.setPath p path)
    | none => (.begun false, w)
  | .bind i, w =>
    let (x, w) := w.bind p i
    (.bound x, w)
  | .branch x, w =>
    let (r, w) := Exec.branch x w
    (.taken r, w)
  | .drain, w =>
    let (t, path) := (w.path p).drain
    (.drained t, w.setPath p path)

def runAll (p : Nat) (ops : List PathOp) (w : World) : World := ops.foldl (fun w op => (op.run p w).2) w

/-- The predicates that the operation records on the path. -/
def record (p : Nat) : PathOp → World → Trace
  | .branch x, w => Exec.logged p x w
  | .begin, _ | .bind _, _ | .drain, _ => []

def records (p : Nat) : List PathOp → World → Trace
  | [], _ => []
  | op :: ops, w => op.record p w ++ records p ops (op.run p w).2

end PathOp

/-- The path exists, and it is empty unless it is active. -/
structure World.Sane (w : World) (p : Nat) : Prop where
  exists_path : p < w.paths.size
  empty : (w.path p).active = false → (w.path p).trace = []

theorem World.Ready.sane (hw : w.Ready p) : w.Sane p := by
  refine ⟨hw.exists_path, fun _ => ?_⟩
  rw [hw.drained]

theorem World.Sane.ready (hw : w.Sane p) (h : (w.path p).active = false) : w.Ready p := by
  refine ⟨hw.exists_path, ?_⟩
  have hempty := hw.empty h
  generalize w.path p = path at h hempty
  cases path
  subst h hempty
  rfl

theorem World.Extends.sane (h : w.Extends p t w') (hw : w.Sane p) (ht : (w.path p).active = false → t = []) :
    w'.Sane p := by
  refine ⟨h.size ▸ hw.exists_path, fun hactive => ?_⟩
  rw [h.path] at hactive ⊢
  dsimp only at hactive ⊢
  rw [hw.empty hactive, ht hactive]
  rfl

namespace PathOp

variable {before mid : List PathOp}

theorem begin_of_active (h : (w.path p).active = true) : PathOp.begin.run p w = (.begun false, w) := by
  rw [run, Path.begin?, h]
  rfl

theorem begin_of_inactive (hw : w.Sane p) (h : (w.path p).active = false) :
    PathOp.begin.run p w = (.begun true, w.setPath p { active := true }) := by
  rw [run, (hw.ready h).drained]
  rfl

theorem ready_drain (hp : p < w.paths.size) : (PathOp.drain.run p w).2.Ready p :=
  ⟨(World.size_setPath _ _).symm ▸ hp, World.path_setPath_self hp _⟩

/-- Any operation but a drain adds its record to the trace, and the path is active afterwards if it was before or a
run was begun. -/
theorem run_path (hw : w.Sane p) {op : PathOp} (hop : op ≠ .drain) :
    (op.run p w).2.Sane p ∧ ((op.run p w).2.path p).trace = (w.path p).trace ++ op.record p w ∧
      (((op.run p w).2.path p).active = true ↔ (w.path p).active = true ∨ op = .begin) := by
  cases op with
  | begin =>
      rw [record, List.append_nil]
      cases hactive : (w.path p).active with
      | true =>
          rw [begin_of_active hactive]
          exact ⟨hw, rfl, by simp [hactive]⟩
      | false =>
          have hpath : (w.setPath p { active := true }).path p = { active := true } :=
            World.path_setPath_self hw.exists_path _
          rw [begin_of_inactive hw hactive, hpath, hw.empty hactive]
          refine ⟨⟨(World.size_setPath _ _).symm ▸ hw.exists_path, fun h => ?_⟩, rfl, by simp⟩
          rw [hpath] at h
          cases h
  | bind i =>
      have h : w.Extends p [] ((PathOp.bind i).run p w).2 := .bind p i w
      refine ⟨h.sane hw fun _ => rfl, congrArg Path.trace h.path, ?_⟩
      rw [h.path]
      simp
  | branch x =>
      have h : w.Extends p (Exec.logged p x w) ((PathOp.branch x).run p w).2 := .branch x w
      refine ⟨h.sane hw (Exec.logged_inactive x), congrArg Path.trace h.path, ?_⟩
      rw [h.path]
      simp
  | drain => exact absurd rfl hop

theorem sane_runAll (hw : w.Sane p) (ops : List PathOp) : (runAll p ops w).Sane p := by
  induction ops generalizing w with
  | nil => exact hw
  | cons op ops ih =>
      refine ih ?_
      cases op with
      | drain => exact (ready_drain hw.exists_path).sane
      | _ => exact (run_path hw (by rintro ⟨⟩)).1

/-- Without a drain the records add up. -/
theorem runAll_path (hmid : .drain ∉ mid) : ∀ {w : World}, w.Sane p →
    ((runAll p mid w).path p).trace = (w.path p).trace ++ records p mid w ∧
      (((runAll p mid w).path p).active = true ↔ (w.path p).active = true ∨ .begin ∈ mid) := by
  induction mid with
  | nil => exact fun _ => ⟨(List.append_nil _).symm, by simp [runAll]⟩
  | cons op mid ih =>
      intro w hw
      rw [List.mem_cons, not_or] at hmid
      obtain ⟨hop, hmid⟩ := hmid
      obtain ⟨hsane, htrace, hactive⟩ := run_path hw (Ne.symm hop)
      obtain ⟨htrace', hactive'⟩ := ih hmid hsane
      refine ⟨?_, ?_⟩
      · rw [records, ← List.append_assoc, ← htrace]
        exact htrace'
      · rw [List.mem_cons, ← or_assoc, eq_comm (a := PathOp.begin), ← hactive]
        exact hactive'

/-- Nothing was done yet, or a drain was the last thing. -/
def EndsDrained (ops : List PathOp) : Prop := ops = [] ∨ ∃ before, ops = before ++ [.drain]

/-- Any operations have a last drain, or none. -/
theorem exists_split (ops : List PathOp) :
    ∃ before mid, ops = before ++ mid ∧ EndsDrained before ∧ .drain ∉ mid := by
  induction ops using List.reverseRecOn with
  | nil => exact ⟨[], [], rfl, .inl rfl, List.not_mem_nil⟩
  | append_singleton ops op ih =>
      obtain ⟨before, mid, rfl, hbefore, hmid⟩ := ih
      have hkeep : op ≠ .drain → .drain ∉ mid ++ [op] := by
        intro hop
        rw [List.mem_append, List.mem_singleton]
        rintro (h | h)
        · exact hmid h
        · exact hop h.symm
      cases op with
      | drain => exact ⟨_, [], (List.append_nil _).symm, .inr ⟨_, rfl⟩, List.not_mem_nil⟩
      | _ => exact ⟨before, _, List.append_assoc _ _ _, hbefore, hkeep (by rintro ⟨⟩)⟩

theorem EndsDrained.ready (h : EndsDrained before) (hw : w.Ready p) : (runAll p before w).Ready p := by
  rcases h with rfl | ⟨ops, rfl⟩
  · exact hw
  · rw [runAll, List.foldl_append]
    exact ready_drain (sane_runAll hw.sane ops).exists_path

end PathOp

/-! ### Procedures -/

/-- Runs the computation and hands on how it ended. -/
def Exec.attempt {α : Type} (act : Exec α) : Exec (Except Stop α) := fun w => (.ok (act w).1, (act w).2)

/-- What a target may do in a run. What comes next may depend on all it has seen, refusals included. -/
inductive Procedure (α : Type) : Type 1 where
  | done (a : α)
  | stop (e : Stop)
  | param (name : String) (next : Except Stop SymInt → Procedure α)
  | build {β : Type} (act : Build β) (next : β → Procedure α)
  | branch (x : SymBool) (next : Except Stop Bool → Procedure α)
  /-- Reads what earlier runs have left, and changes it. -/
  | memory (change : List (String × SymInt) → List (String × SymInt)) (next : List (String × SymInt) → Procedure α)

namespace Procedure

variable {α β : Type} {args : Args}

def run (args : Args) : Procedure α → Exec α
  | .done a => pure a
  | .stop e => throw e
  | .param name next => Exec.attempt (args.value name) >>= fun r => (next r).run args
  | .build act next => Exec.build act >>= fun a => (next a).run args
  | .branch x next => Exec.attempt (Exec.branch x) >>= fun r => (next r).run args
  | .memory change next => fun w => (next w.memory).run args { w with memory := change w.memory }

/-- The predicates that a run records on the path, in order. -/
def records (p : Nat) (args : Args) : Procedure α → World → Trace
  | .done _, _ | .stop _, _ => []
  | .param name next, w => (next (args.value name w).1).records p args w
  | .build act next, w => (next (w.build act).1).records p args (w.build act).2
  | .branch x next, w => Exec.logged p x w ++ (next (Exec.branch x w).1).records p args (Exec.branch x w).2
  | .memory change next, w => (next w.memory).records p args { w with memory := change w.memory }

/-- However it ends, a run adds its records to the trace. -/
theorem run_extends (code : Procedure α) : ∀ w : World, w.Extends p (code.records p args w) (code.run args w).2 := by
  induction code with
  | done a => exact fun w => .of_paths_eq rfl
  | stop e => exact fun w => .of_paths_eq rfl
  | param name next ih =>
      intro w
      have hworld : (args.value name w).2 = w := by
        rw [Args.value]
        cases lookupValue name args <;> rfl
      change w.Extends p _ ((next (args.value name w).1).run args (args.value name w).2).2
      rw [hworld]
      exact ih _ w
  | build act next ih =>
      intro w
      exact (World.Extends.build act w).trans (ih _ _)
  | branch x next ih =>
      intro w
      exact (World.Extends.branch x w).trans (ih _ _)
  | memory change next ih =>
      intro w
      have hkept : w.Extends p [] { w with memory := change w.memory } := .of_paths_eq rfl
      exact hkept.trans (ih w.memory _)

def bind (next : α → Procedure β) : Procedure α → Procedure β
  | .done a => next a
  | .stop e => .stop e
  | .param name rest => .param name fun r => (rest r).bind next
  | .build act rest => .build act fun a => (rest a).bind next
  | .branch x rest => .branch x fun r => (rest r).bind next
  | .memory change rest => .memory change fun kept => (rest kept).bind next

theorem run_bind (next : α → Procedure β) (code : Procedure α) :
    (code.bind next).run args = code.run args >>= fun a => (next a).run args := by
  induction code with
  | done a => rw [bind, run, pure_bind]
  | stop e => rfl
  | param name rest ih => simp only [bind, run, ih, bind_assoc]
  | build act rest ih => simp only [bind, run, ih, bind_assoc]
  | branch x rest ih => simp only [bind, run, ih, bind_assoc]
  | memory change rest ih =>
      funext w
      exact congrFun (ih w.memory) _

/-- Ends as the computation did that was attempted. -/
def settle : Except Stop α → Procedure α
  | .ok a => .done a
  | .error e => .stop e

theorem attempt_settle (act : Exec α) : (Exec.attempt act >>= fun r => (settle r).run args) = act := by
  funext w
  change (settle (act w).1).run args (act w).2 = act w
  rcases act w with ⟨e | a, w'⟩ <;> rfl

end Procedure

/-- Some procedure runs as the computation does. -/
def Exec.Described {α : Type} (act : Args → Exec α) : Prop := ∃ code : Procedure α, ∀ args, act args = code.run args

namespace Exec.Described

variable {α β : Type}

theorem pure (a : α) : Described fun _ => (Pure.pure a : Exec α) := ⟨.done a, fun _ => rfl⟩

theorem throw (e : Stop) : Described fun _ => (MonadExcept.throw e : Exec α) := ⟨.stop e, fun _ => rfl⟩

theorem bind {act : Args → Exec α} {next : α → Args → Exec β} (h : Described act) (hnext : ∀ a, Described (next a)) :
    Described fun args => act args >>= fun a => next a args := by
  obtain ⟨code, hcode⟩ := h
  choose codes hcodes using hnext
  refine ⟨code.bind codes, fun args => ?_⟩
  dsimp only
  rw [Procedure.run_bind, hcode]
  simp only [hcodes]

theorem build (act : Build α) : Described fun _ => Exec.build act := ⟨.build act .done, fun _ => (bind_pure _).symm⟩

theorem branch (x : SymBool) : Described fun _ => Exec.branch x :=
  ⟨.branch x .settle, fun _ => (Procedure.attempt_settle _).symm⟩

theorem param (name : String) : Described fun args => args.value name :=
  ⟨.param name .settle, fun _ => (Procedure.attempt_settle _).symm⟩

end Exec.Described

namespace Script

open Exec (Described)

mutual
theorem int_described (locals : Locals) : ∀ x : IntExpr, Described fun args => int args locals x
  | .lit _ | .var _ => .pure _
  | .param name => .param name
  | .kept name => ⟨.memory id fun kept => .done ((lookupValue name kept).getD (.const 0)), fun _ => rfl⟩
  | .unary _ x => (int_described locals x).bind fun _ => .build _
  | .binary _ x y => (int_described locals x).bind fun _ => (int_described locals y).bind fun _ => .build _
  | .ite c x y => (bool_described locals c).bind fun _ => (int_described locals x).bind fun _ =>
      (int_described locals y).bind fun _ => .build _
  | .ofBool c => (bool_described locals c).bind fun _ => .build _

theorem bool_described (locals : Locals) : ∀ c : BoolExpr, Described fun args => bool args locals c
  | .lit _ => .pure _
  | .compare _ x y => (int_described locals x).bind fun _ => (int_described locals y).bind fun _ => .build _
  | .not c => (bool_described locals c).bind fun _ => .build _
  | .join _ c d => (bool_described locals c).bind fun _ => (bool_described locals d).bind fun _ => .build _
end

/-- After a statement the rest runs, unless it returned. -/
theorem continue_described {rest : Locals → Args → Exec Step} (hrest : ∀ locals, Described (rest locals)) :
    ∀ step : Step, Described fun args =>
      (match step with
        | (locals, some x) => return (locals, some x)
        | (locals, none) => rest locals args : Exec Step)
  | (_, some _) => .pure _
  | (locals, none) => hrest locals

theorem rounds_described {test : Locals → Args → Exec Bool} {body : Locals → Args → Exec Step}
    (htest : ∀ locals, Described (test locals)) (hbody : ∀ locals, Described (body locals)) (n : Nat) :
    ∀ locals, Described fun args => rounds (fun l => test l args) (fun l => body l args) n locals := by
  induction n with
  | zero => exact fun _ => .pure _
  | succ n ih =>
      intro locals
      refine (htest locals).bind fun taken => ?_
      cases taken with
      | true => exact (hbody locals).bind (continue_described ih)
      | false => exact .pure _

mutual
theorem stmt_described : ∀ (s : Stmt) (locals : Locals), Described fun args => stmt args locals s
  | .set _ x, locals => (int_described locals x).bind fun _ => .pure _
  | .keep name x, locals => (int_described locals x).bind fun a =>
      ⟨.memory (setValue name a) fun _ => .done (locals, none), fun _ => rfl⟩
  | .ret x, locals => (int_described locals x).bind fun _ => .pure _
  | .panic text, _ => .throw _
  | .branch c yes no, locals => by
      refine (bool_described locals c).bind fun g => (Described.branch g).bind fun taken => ?_
      cases taken with
      | true => exact block_described yes locals
      | false => exact block_described no locals
  | .loop c n body, locals =>
      rounds_described (fun locals => (bool_described locals c).bind .branch) (block_described body) n locals

theorem block_described : ∀ (ss : List Stmt) (locals : Locals), Described fun args => block args locals ss
  | [], _ => .pure _
  | s :: ss, locals => (stmt_described s locals).bind (continue_described (block_described ss))
end

/-- Every script runs as some procedure does. -/
theorem run_described (s : Script) : Described s.run := (block_described s []).bind fun _ => .pure _

end Script

/-! ### Calls -/

namespace Invocation

variable {inv : Invocation} {code : Procedure SymInt}

/-- The predicates that the run of a call records, in order. There is no run if an input is missing. -/
def records (inv : Invocation) (code : Procedure SymInt) (m : InputMap) (w : World) : Trace :=
  match bindArgs inv.path m inv.params [] w with
  | (.error _, _) => []
  | (.ok args, w) => code.records inv.path args (w.setPath inv.path { active := true })

/-- Binding fails only for an input that is missing. -/
theorem missing_of_bindArgs {m : InputMap} {params : List String} {args : Args} {e : CallError}
    (h : bindArgs p m params args w = (.error e, w')) :
    ∃ name ∈ params, m.find? name = none ∧ e = .missingInput name := by
  induction params generalizing args w with
  | nil => cases h
  | cons name params ih =>
      rw [bindArgs] at h
      cases hfind : m.find? name with
      | none =>
          rw [hfind] at h
          cases h
          exact ⟨name, List.mem_cons_self, hfind, rfl⟩
      | some i =>
          rw [hfind] at h
          obtain ⟨name', hname', hmissing⟩ := ih h
          exact ⟨name', List.mem_cons_of_mem _ hname', hmissing⟩

theorem ready_bindArgs (hw : w.Ready p) (m : InputMap) (params : List String) (args : Args) :
    (bindArgs p m params args w).2.Ready p := by
  rw [InputMap.bindArgs_eq]
  exact hw.of_paths_eq rfl

/-- The end of a run is never reported as a path that was not drained. -/
theorem resultOf_ne_traceNotDrained (name : String) (out : Except Stop SymInt) :
    resultOf name out ≠ .error .traceNotDrained := by
  rcases out with (_ | _ | _) | _ <;> rintro ⟨⟩

/-- A call whose path is inactive and empty begins a run, and ends it however the body ends. -/
theorem call_of_body {m : InputMap} {args : Args} {w₁ w₂ : World} {out : Except Stop SymInt}
    (hbind : bindArgs inv.path m inv.params [] w = (.ok args, w₁)) (hw₁ : w₁.Ready inv.path)
    (hrun : inv.body args (w₁.setPath inv.path { active := true }) = (out, w₂)) :
    inv.call m w = ((resultOf inv.name out).map (·, (w₂.path inv.path).trace), w₂.setPath inv.path {}) := by
  have hbegin : (w₁.path inv.path).begin? = some { active := true } := by
    rw [hw₁.drained]
    rfl
  rw [call, hbind]
  dsimp only
  rw [hbegin]
  dsimp only
  rw [ExceptT.run, hrun]
  rfl

/-- A call that finds its path inactive and empty leaves it so, and hands out the records of its own run. -/
theorem call_spec (hbody : ∀ args, inv.body args = code.run args) (hw : w.Ready inv.path) (m : InputMap) :
    (inv.call m w).2.Ready inv.path ∧ (inv.call m w).1 ≠ .error .traceNotDrained ∧
      ∀ r t, (inv.call m w).1 = .ok (r, t) → t = inv.records code m w := by
  have hw₁ := ready_bindArgs hw m inv.params []
  rcases hbind : bindArgs inv.path m inv.params [] w with ⟨e | args, w₁⟩
  · rw [hbind] at hw₁
    obtain ⟨name, -, -, rfl⟩ := missing_of_bindArgs hbind
    rw [call, hbind]
    exact ⟨hw₁, by rintro ⟨⟩, by rintro _ _ ⟨⟩⟩
  · rw [hbind] at hw₁
    set start := w₁.setPath inv.path { active := true } with hstart
    rcases hrun : inv.body args start with ⟨out, w₂⟩
    have hextends : start.Extends inv.path (code.records inv.path args start) (code.run args start).2 :=
      code.run_extends start
    rw [← hbody, hrun] at hextends
    have hsize : inv.path < w₂.paths.size := by
      rw [hextends.size, World.size_setPath]
      exact hw₁.exists_path
    have htrace : (w₂.path inv.path).trace = inv.records code m w := by
      rw [hextends.path, World.path_setPath_self hw₁.exists_path, records, hbind]
      rfl
    rw [call_of_body hbind hw₁ hrun, htrace]
    refine ⟨⟨(World.size_setPath _ _).symm ▸ hsize, World.path_setPath_self hsize _⟩, ?_⟩
    have hresult := resultOf_ne_traceNotDrained inv.name out
    generalize resultOf inv.name out = result at hresult ⊢
    rcases result with e | r
    · refine ⟨?_, by rintro _ _ ⟨⟩⟩
      rintro ⟨⟩
      exact hresult rfl
    · refine ⟨by rintro ⟨⟩, ?_⟩
      rintro _ _ ⟨⟩
      rfl

theorem exists_trace {m : InputMap} {n : Nat} (h : (inv.call m w).1.map (·.2.length) = .ok n) :
    ∃ r trace, (inv.call m w).1 = .ok (r, trace) ∧ trace.length = n := by
  rcases hcall : (inv.call m w).1 with e | ⟨r, trace⟩
  · rw [hcall] at h
    cases h
  · rw [hcall] at h
    exact ⟨r, trace, rfl, Except.ok.inj h⟩

/-- The worlds that calls lead to, one after the other. What happens between them leaves the path alone. -/
inductive LeadsTo (inv : Invocation) (w : World) : World → Prop
  | start : LeadsTo inv w w
  | call {v : World} (h : LeadsTo inv w v) (m : InputMap) : LeadsTo inv w (inv.call m v).2
  | other {v v' : World} (h : LeadsTo inv w v) (hsize : v.paths.size ≤ v'.paths.size)
      (hpath : v'.path inv.path = v.path inv.path) : LeadsTo inv w v'

theorem LeadsTo.ready (hbody : ∀ args, inv.body args = code.run args) (hw : w.Ready inv.path) {v : World}
    (h : inv.LeadsTo w v) : v.Ready inv.path := by
  induction h with
  | start => exact hw
  | call h m ih => exact (call_spec hbody ih m).1
  | other h hsize hpath ih => exact ⟨ih.exists_path.trans_le hsize, hpath.trans ih.drained⟩

end Invocation

theorem World.ready_newPath (w : World) : w.newPath.2.Ready w.paths.size := by
  refine ⟨?_, ?_⟩
  · rw [newPath, Array.size_push]
    exact Nat.lt_succ_self _
  · unfold newPath path
    simp

/-- The life of a path. An inactive path is empty. Beginning a run is refused if and only if the path is active, and
then changes nothing. A branch on an inactive path changes nothing. Draining returns what was recorded since the last
drain. A call leaves its path inactive and empty, is never refused for what an earlier one left, and its trace is what
its own run recorded. Scripts are such targets. -/
theorem path_lifecycle :
    (∀ (w : World) (p : Nat), w.Ready p → ∀ ops : List PathOp,
      let v := PathOp.runAll p ops w
      ((v.path p).active = false → (v.path p).trace = []) ∧
      ((PathOp.begin.run p v).1 = .begun false ↔ (v.path p).active = true) ∧
      ((PathOp.begin.run p v).1 = .begun false → (PathOp.begin.run p v).2 = v) ∧
      (∀ x : SymBool, Tracked.OnPath (k := .bool) p x → (v.path p).active = false →
        ((PathOp.branch x).run p v).2 = v ∧
          (x.isSymbolic = true → ((PathOp.branch x).run p v).1 = .taken (.error .inactivePath))) ∧
      ∃ before mid, ops = before ++ mid ∧ PathOp.EndsDrained before ∧ .drain ∉ mid ∧
        (PathOp.drain.run p v).1 = .drained (PathOp.records p mid (PathOp.runAll p before w)) ∧
        ((v.path p).active = true ↔ .begin ∈ mid)) ∧
    (∀ (t : Target) (home : Nat) (w w' : World) (inv : Invocation) (code : Procedure SymInt),
      t.invoke (some home) w = .ok (inv, w') → t.body = some (fun args => code.run args) →
      ∀ v, inv.LeadsTo w' v → v.Ready inv.path ∧
        ∀ m, (inv.call m v).2.Ready inv.path ∧ (inv.call m v).1 ≠ .error .traceNotDrained ∧
          ∀ r trace, (inv.call m v).1 = .ok (r, trace) → trace = inv.records code m v) ∧
    ∀ s : Script, ∃ code : Procedure SymInt, s.run = fun args => code.run args := by
  refine ⟨fun w p hw ops => ?_, fun t home w w' inv code hinv hbody v hv => ?_, fun s => ?_⟩
  · obtain ⟨before, mid, rfl, hbefore, hmid⟩ := PathOp.exists_split ops
    have hready : (PathOp.runAll p before w).Ready p := hbefore.ready hw
    have hsane := PathOp.sane_runAll hready.sane mid
    obtain ⟨htrace, hactive⟩ := PathOp.runAll_path hmid hready.sane
    rw [hready.drained] at htrace hactive
    have hrun : PathOp.runAll p (before ++ mid) w = PathOp.runAll p mid (PathOp.runAll p before w) :=
      List.foldl_append
    rw [hrun]
    generalize PathOp.runAll p mid (PathOp.runAll p before w) = v at hsane htrace hactive ⊢
    have hbegin : (PathOp.begin.run p v).1 = .begun false ↔ (v.path p).active = true := by
      cases hv : (v.path p).active with
      | true => simp [PathOp.begin_of_active hv]
      | false => simp [PathOp.begin_of_inactive hsane hv]
    refine ⟨hsane.empty, hbegin, fun hrefused => ?_, fun x hx hinactive => ?_, before, mid, rfl, hbefore, hmid,
      congrArg PathReply.drained htrace, ?_⟩
    · rw [PathOp.begin_of_active (hbegin.mp hrefused)]
    · obtain ⟨hworld, hreply⟩ := Exec.branch_inactive hx hinactive
      exact ⟨hworld, fun hsymbolic => congrArg PathReply.taken (hreply hsymbolic)⟩
    · simpa using hactive
  · obtain ⟨body, hsome, rfl, rfl⟩ := Target.invoke_eq_ok hinv
    have hcode : ∀ args, body args = code.run args := congrFun (Option.some.inj (hsome.symm.trans hbody))
    have hready := hv.ready hcode w.ready_newPath
    exact ⟨hready, Invocation.call_spec hcode hready⟩
  · obtain ⟨code, hcode⟩ := s.run_described
    exact ⟨code, funext hcode⟩

/-- A branch before and after a run, and calls that lack an input, ask for an unknown parameter and panic, before one
that records a single predicate. A target that goes on after an unknown parameter and a branch that is refused records
what it branches on then. -/
theorem path_lifecycle_of_failing_calls :
    let x : SymBool := ⟨true, some ⟨.compare 3 .slt (.symbol 1 "x" 64) (.symbol 2 "y" 64), 0⟩⟩
    let ops : List PathOp := [.begin, .branch x, .begin, .drain, .branch x, .begin]
    let w : World := { paths := #[{}] }
    let s : Script := [.branch (.compare .lt (.param "x") (.lit 0)) [.panic "negative"] [], .ret (.param "y")]
    let inv : Invocation := ⟨"checked", ["x"], s.run, 0, 0⟩
    let input (n : Int64) : InputMap := ⟨[⟨"x", n, true⟩]⟩
    let v := (inv.call (input (-1)) (inv.call (input 1) (inv.call ⟨[]⟩ w).2).2).2
    let stale : SymBool := ⟨true, some ⟨.compare 3 .slt (.symbol 1 "x" 64) (.symbol 2 "y" 64), 1⟩⟩
    let recovers : Procedure SymInt := .param "y" fun _ => .branch stale fun _ => .branch x fun _ => .done (.const 0)
    let saved : Invocation := ⟨"saved", ["x"], fun args => recovers.run args, 0, 0⟩
    (∃ before mid, ops = before ++ mid ∧ PathOp.EndsDrained before ∧ .drain ∉ mid ∧
      (PathOp.drain.run 0 (PathOp.runAll 0 ops w)).1 = .drained (PathOp.records 0 mid (PathOp.runAll 0 before w))) ∧
    (inv.call ⟨[]⟩ w).1.isOk = false ∧ (inv.call (input 1) w).1.isOk = false ∧ v.Ready 0 ∧
      (∃ code r trace, (inv.call (input (-2)) v).1 = .ok (r, trace) ∧ trace.length = 1 ∧
        trace = inv.records code (input (-2)) v) ∧
      ∃ r trace, (saved.call (input 1) w).1 = .ok (r, trace) ∧ trace.length = 1 ∧
        trace = saved.records recovers (input 1) w := by
  intro x ops w s inv input v stale recovers saved
  obtain ⟨-, -, -, -, before, mid, hops, hbefore, hmid, hdrained, -⟩ := path_lifecycle.1 w 0 ⟨by decide, rfl⟩ ops
  obtain ⟨code, hcode⟩ := path_lifecycle.2.2 s
  have hbody : some s.run = some fun args => code.run args := congrArg some hcode
  obtain ⟨hready, hcalls⟩ := path_lifecycle.2.1 ⟨"checked", ["x"], some s.run⟩ 0 {} w inv code rfl hbody v
    (.call (.call (.call .start _) _) _)
  have hlength : (inv.call (input (-2)) v).1.map (·.2.length) = .ok 1 := by decide +kernel
  obtain ⟨-, hsaves⟩ := path_lifecycle.2.1 ⟨"saved", ["x"], some fun args => recovers.run args⟩ 0 {} w saved recovers
    rfl rfl w .start
  have hlength' : (saved.call (input 1) w).1.map (·.2.length) = .ok 1 := by decide +kernel
  refine ⟨⟨before, mid, hops, hbefore, hmid, hdrained⟩, by decide +kernel, by decide +kernel, hready, ⟨code, ?_⟩, ?_⟩
  · obtain ⟨r, trace, hcall, hone⟩ := Invocation.exists_trace hlength
    exact ⟨r, trace, hcall, hone, (hcalls _).2.2 r trace hcall⟩
  · obtain ⟨r, trace, hcall, hone⟩ := Invocation.exists_trace hlength'
    exact ⟨r, trace, hcall, hone, (hsaves _).2.2 r trace hcall⟩

end Pathwise
