import Pathwise.Proofs.Calls
import Pathwise.Proofs.Constructors

/-! Concolic agreement. Inputs are bound on an active path and combined by operations and branches, in any
order and as often as one likes. Each integer that comes up is the value of its term, and each truth value
that of its condition, evaluated under the model that gives the symbolic inputs their values; the formula of
the trace that a call records is true under the call's inputs. The invariant is `Registers.Sound`: one step
keeps it, and hence a computation does. -/

namespace Pathwise

open Builder

variable {ρ : Valuation} {names : List (String × Nat)} {p : Nat} {b : Builder}

/-- One step of a computation: an operation whose result is added to the registers, or a branch. -/
inductive Step where
  | operation {k : Ty} (o : Operation k)
  | branch (g : Nat)

/-- Takes the step. -/
def Step.run (r : Registers) : Step → Exec Registers
  | .operation o => do return r.push (← Exec.build (o.run r))
  | .branch g => do
    let _ ← Exec.branch (r.bool g)
    return r

/-- Takes the steps one after the other. -/
def Step.runAll (steps : List Step) (r : Registers) : Exec Registers := steps.foldlM Step.run r

/-- Binds inputs on a path, each to the next register. -/
def Registers.load (p : Nat) : List Input → Registers → World → Registers × World
  | [], r, w => (r, w)
  | i :: is, r, w =>
    let (x, w) := w.bind p i
    load p is (r.push (k := .word) x) w

/-! ### Steps keep agreement -/

/-- A step on an active path succeeds and keeps agreement. -/
theorem Step.run_sound {w : World} {t : Trace} {r : Registers} (hp : p < w.paths.size) (hb : b.Consistent)
    (hr : r.Sound b ρ names p) (s : Step) :
    ∃ r' b' t', s.run r (w.running p b t) = (.ok r', w.running p b' t') ∧ b'.Consistent ∧
      r'.Sound b' ρ names p := by
  cases s with
  | operation o =>
      have hrun := o.run_runs hb hr
      refine ⟨_, _, t, ?_, hrun.consistent, (hr.mono hrun.grows).push hrun.post⟩
      rw [Step.run, bind_of_ok (Exec.build_running _)]
      rfl
  | branch g =>
      have hrun := SymBool.record_runs hb (hr.bool g)
      refine ⟨r, _, t ++ ((r.bool g).record b).1, ?_, hrun.consistent, hr.mono hrun.grows⟩
      rw [Step.run, bind_of_ok (Exec.branch_running hp (hr.onPath.bool g))]
      rfl

/-- So do steps one after the other. -/
theorem Step.runAll_sound {w : World} (hp : p < w.paths.size) (steps : List Step) :
    ∀ {b : Builder} {t : Trace} {r : Registers}, b.Consistent → r.Sound b ρ names p →
      ∃ r' b' t', Step.runAll steps r (w.running p b t) = (.ok r', w.running p b' t') ∧ b'.Consistent ∧
        r'.Sound b' ρ names p := by
  induction steps with
  | nil => exact fun hb hr => ⟨_, _, _, rfl, hb, hr⟩
  | cons s steps ih =>
      intro b t r hb hr
      obtain ⟨r₁, b₁, t₁, hrun, hb₁, hr₁⟩ := s.run_sound hp hb hr
      obtain ⟨r₂, b₂, t₂, hrest, hb₂, hr₂⟩ := ih (t := t₁) hb₁ hr₁
      refine ⟨r₂, b₂, t₂, ?_, hb₂, hr₂⟩
      rw [Step.runAll, List.foldlM_cons, bind_of_ok hrun]
      exact hrest

/-- Bound inputs agree with their symbols. -/
theorem Registers.load_sound {w : World} {inputs : List Input}
    (hin : ∀ i ∈ inputs, i.symbolic = true → ρ i.name intWidth = i.value.toBitVec ∧ (i.name, intWidth) ∈ names) :
    ∀ {b : Builder} {t : Trace} {r : Registers}, b.Consistent → r.Sound b ρ names p →
      ∃ r' b', Registers.load p inputs r (w.running p b t) = (r', w.running p b' t) ∧ b'.Consistent ∧
        r'.Sound b' ρ names p := by
  induction inputs with
  | nil => exact fun hb hr => ⟨_, _, rfl, hb, hr⟩
  | cons i is ih =>
      intro b t r hb hr
      rw [List.forall_mem_cons] at hin
      have hrun := Input.track_runs (p := p) hb hin.1
      rw [Registers.load, World.bind_eq, World.build_running]
      exact ih hin.2 hrun.consistent ((hr.mono hrun.grows).push hrun.post)

/-! ### Values under the inputs -/

namespace InputMap

variable {m : InputMap}

/-- The value of a term that agrees with a native integer. -/
theorem evalWord_of_knows (hb : b.Consistent) {t : Term .word} {v : Int64}
    (ht : b.Knows (k := .word) m.valuation m.symbols t v) :
    ∃ c, (Build.evalWord m.model t b).1 = .ok c ∧ c.toInt64 = v := by
  have hcovers : m.model.Covers t.free := fun s hs => m.covers_symbols s (ht.free hs)
  obtain ⟨c, hc, hwidth, hbits⟩ := Build.evalWord_of_covers hb ht.holdsAt hcovers fun _ _ => 0
  refine ⟨c, hc, ?_⟩
  have hv : c.bits 64 = v.toBitVec := hbits.trans ht.gives.2
  rw [Word.toInt64, ← Word.toInt_bits hwidth]
  change Int64.ofInt (c.bits 64).toInt = v
  rw [hv]
  exact Int64.ofInt_toInt v

theorem evalBool_of_knows (hb : b.Consistent) {q : Cond} {v : Bool}
    (hq : b.Knows (k := .bool) m.valuation m.symbols q v) : (Build.evalBool m.model q b).1 = .ok v := by
  have hcovers : m.model.Covers q.free := fun s hs => m.covers_symbols s (hq.free hs)
  rw [Build.evalBool_of_covers hb hq.held hcovers fun _ _ => 0]
  exact congrArg Except.ok hq.gives

end InputMap

theorem World.eq_running {w : World} (h : (w.path p).active = true) :
    p < w.paths.size ∧ w.running p w.builder (w.path p).trace = w := by
  have hp : p < w.paths.size := World.lt_size_of_active h
  refine ⟨hp, ?_⟩
  unfold World.running
  rw [← h]
  exact World.setPath_self hp

/-- Every value of a computation is the value of its term. -/
theorem values_agree {m : InputMap} (hb : b.Consistent) {r : Registers} (hr : r.Sound b m.valuation m.symbols p) :
    (∀ x ∈ r.ints, ∃ c, ((do Build.evalWord m.model (← x.term)) b).1 = .ok c ∧ c.toInt64 = x.value) ∧
      ∀ x ∈ r.bools, ((do Build.evalBool m.model (← x.term)) b).1 = .ok x.value := by
  constructor
  · intro x hx
    have hrun := SymInt.term_runs hb (hr .word x hx)
    exact InputMap.evalWord_of_knows hrun.consistent hrun.post
  · intro x hx
    have hrun := SymBool.term_runs hb (hr .bool x hx)
    exact InputMap.evalBool_of_knows hrun.consistent hrun.post

/-- The formula of a trace that holds under inputs is true under them. -/
theorem formula_agrees {m : InputMap} (hb : b.Consistent) {t : Trace} (ht : t.Formed b m.symbols)
    (hholds : t.HoldsFor m.valuation) : ((do Build.evalBool m.model (← t.formula)) b).1 = .ok true := by
  have hrun := Trace.formula_runs hb ht
  refine InputMap.evalBool_of_knows hrun.consistent (hrun.post.knows ?_ (List.Subset.refl _))
  exact List.all_eq_true.mpr fun d hd => beq_iff_eq.mpr (hholds d hd)

/-- Tracked values agree with their terms, and traces with the inputs that produced them. -/
theorem concolic_agreement :
    (∀ {scatter : List Nat → Nat} (w : World) (p : Nat) (inputs : List Input) (steps : List Step),
      Evolves { scatter } w.builder → (w.path p).active = true → (inputs.map (·.name)).Nodup →
      ∃ r w', Step.runAll steps (Registers.load p inputs {} w).1 (Registers.load p inputs {} w).2 = (.ok r, w') ∧
        (∀ x ∈ r.ints, ∃ c, ((do Build.evalWord (InputMap.model ⟨inputs⟩) (← x.term)) w'.builder).1 = .ok c ∧
          c.toInt64 = x.value) ∧
        ∀ x ∈ r.bools, ((do Build.evalBool (InputMap.model ⟨inputs⟩) (← x.term)) w'.builder).1 = .ok x.value) ∧
    ∀ {scatter : List Nat → Nat} (inv : Invocation) (r : Routine) (w : World) (m : InputMap), inv.Follows r →
      Evolves { scatter } w.builder → w.Ready inv.path →
      (∀ a t w', inv.call m w = (.ok (a, t), w') →
        ((do Build.evalBool m.model (← t.formula)) w'.builder).1 = .ok true) ∧
      ∀ e w', inv.call m w = (.error e, w') →
        (∃ name ∈ inv.params, m.find? name = none ∧ e = .missingInput name) ∨
          ∃ name ∈ r.asks, name ∉ inv.params ∧ e = .unknownParameter name := by
  constructor
  · intro scatter w p inputs steps hb hactive hnames
    obtain ⟨hp, hw⟩ := World.eq_running hactive
    have hin : ∀ i ∈ inputs, i.symbolic = true →
        (InputMap.mk inputs).valuation i.name intWidth = i.value.toBitVec ∧
          (i.name, intWidth) ∈ (InputMap.mk inputs).symbols := fun i hi =>
      InputMap.valuation_of_find? (InputMap.find?_of_mem (m := ⟨inputs⟩) hnames hi)
    obtain ⟨r₀, b₀, hload, hb₀, hr₀⟩ := Registers.load_sound (w := w) (p := p) (t := (w.path p).trace) hin
      hb.consistent Registers.forall_empty
    obtain ⟨r, b, t, hrun, hb', hr⟩ := Step.runAll_sound (w := w) hp steps (t := (w.path p).trace) hb₀ hr₀
    rw [hw] at hload
    rw [hload]
    exact ⟨r, _, hrun, values_agree hb' hr⟩
  · intro scatter inv r w m hr hb hw
    obtain ⟨hb', -, hcalled, -⟩ := inv.callM_runs r hb.consistent m
    rw [Invocation.call_eq hr hw]
    constructor
    · rintro a t w' hcall
      obtain ⟨hres, rfl⟩ := Prod.ext_iff.mp hcall
      exact formula_agrees hb' (hcalled.formed _ hres) (hcalled.holds _ hres)
    · rintro e w' hcall
      exact hcalled.failed e (Prod.ext_iff.mp hcall).1

/-- The least integer divided by -1 and compared, and a target that branches on the sign of its argument. -/
theorem concolic_agreement_at_least_integer :
    let inputs : List Input := [⟨"x", Int64.minValue, true⟩, ⟨"y", -1, false⟩]
    let w : World := { paths := #[{ active := true }] }
    let steps : List Step := [.operation (.binary .div 0 1), .operation (.compare .lt 2 1), .branch 0]
    let sign : Routine := .param "x" (.operation (.const 0) (.operation (.compare .lt 0 1)
      (.branch 0 (.panic "negative") (.ret 0))))
    let inv : Invocation := ⟨"sign", ["x"], fun args => sign.run args {}, 0, 0⟩
    let w' : World := { paths := #[{}] }
    (Evolves {} w.builder ∧ (w.path 0).active = true ∧ (inputs.map (·.name)).Nodup ∧
      ∃ r w', Step.runAll steps (Registers.load 0 inputs {} w).1 (Registers.load 0 inputs {} w).2 = (.ok r, w') ∧
        (∀ x ∈ r.ints, ∃ c, ((do Build.evalWord (InputMap.model ⟨inputs⟩) (← x.term)) w'.builder).1 = .ok c ∧
          c.toInt64 = x.value) ∧
        ∀ x ∈ r.bools, ((do Build.evalBool (InputMap.model ⟨inputs⟩) (← x.term)) w'.builder).1 = .ok x.value) ∧
    inv.Follows sign ∧ Evolves {} w'.builder ∧ w'.Ready inv.path ∧
      ∃ a t w'', inv.call ⟨inputs⟩ w' = (.ok (a, t), w'') ∧
        ((do Build.evalBool (InputMap.model ⟨inputs⟩) (← t.formula)) w''.builder).1 = .ok true := by
  intro inputs w steps sign inv w'
  have hnames : (inputs.map (·.name)).Nodup := by decide
  have hready : w'.Ready inv.path := ⟨by decide, rfl⟩
  obtain ⟨a, t, w'', hcall⟩ := Invocation.call_returns (r := sign) (m := ⟨inputs⟩) (fun _ => rfl)
    hready consistent_empty (by decide) (by decide)
  exact ⟨⟨.refl, rfl, hnames, concolic_agreement.1 w 0 inputs steps .refl rfl hnames⟩,
    fun _ => rfl, .refl, hready, a, t, w'', hcall,
    (concolic_agreement.2 inv sign w' ⟨inputs⟩ (fun _ => rfl) .refl hready).1 a t w'' hcall⟩

end Pathwise
