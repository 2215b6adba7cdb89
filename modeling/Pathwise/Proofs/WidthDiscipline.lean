import Pathwise.Proofs.Calls
import Pathwise.Proofs.FormulaShapes
import Pathwise.Proofs.GuardedConstructors
import Pathwise.Proofs.KeptValues

/-! Width discipline. In every builder that requests and evaluations lead to, a request is refused if and only if its
operands differ in width; otherwise the answer has the width of the operands, and all words under each of its nodes have
one width. So no check inside a constructor ever fails, and an operation on tracked integers, which all have one width,
is never refused: whatever values are bound and computed one after the other, nothing breaks off. -/

namespace Pathwise

open Builder Guarded

variable {b : Builder} {k : Ty}

/-! ### Words under a node -/

/-- The words under the node have one width. -/
def Term.Uniform {k : Ty} : Term k → Prop
  | .ite _ _ yes no => no.width = yes.width
  | .binary _ _ left right => right.width = left.width
  | .nary _ _ args => ∀ t ∈ args, t.width = firstWidth args
  | .compare _ _ left right => right.width = left.width
  | .symbol .. | .const .. | .unary .. | .truth .. | .not .. | .junction .. => True

theorem Term.Proper.uniform {t : Term k} (h : t.Proper) : t.Uniform := by
  cases t with
  | ite => exact h.1
  | binary => exact h.1
  | nary => exact h.1
  | compare => exact h.1
  | _ => trivial

/-- What holds of every held term holds of every node of one. -/
theorem Builder.Consistent.every (hb : b.Consistent) {P : ∀ {k : Ty}, Term k → Prop}
    (hP : ∀ {k : Ty} {t : Term k}, b.Holds t → P t) {t : Term k} (ht : b.Holds t) : t.Every P := by
  -- Children have lower numbers than their parents.
  induction hn : t.id using Nat.strongRecOn generalizing k t with
  | ind n ih =>
      subst hn
      exact Term.every_iff.mpr ⟨hP ht, (hb.closed ht).imp fun u hu => ih u.id hu.2 hu.1 rfl⟩

/-! ### Requests -/

namespace Request

/-- The width of the answer; conditions have none. -/
def width : Request k → Nat
  | .int _ width | .symbol _ width => width
  | .unary _ x | .nary _ x _ | .sub x _ | .binary _ x _ => x.width
  | .ite _ yes _ => yes.width
  | .truth .. | .compare .. | .notEqual .. | .boolNot .. | .join .. | .all .. => 0

theorem width_of_meets {r : Request k} {t : Term k} (h : ∀ ρ, r.Meets ρ t) : t.width = r.width := by
  have hρ := h fun _ _ => 0
  cases r with
  | int => exact hρ.1
  | symbol => exact hρ.1
  | unary => exact hρ.1
  | nary => exact hρ.1
  | sub => exact hρ.1
  | binary => exact hρ.1
  | ite => exact hρ.1
  | _ => cases t <;> rfl

/-- The only fault of a guarded constructor is that it refuses operands of different widths. -/
theorem fault_eq (hb : b.Consistent) {r : Request k} (hr : r.Operands b.Holds) {f : Fault}
    (h : (r.guarded b).1 = .error f) : ¬r.Sized ∧ f = .operands r.refusal := by
  rw [r.guarded_eq hb hr] at h
  have hrun : (r.run b).1.mapError Fault.operands = .error f := h
  by_cases hsized : r.Sized
  · obtain ⟨t, ht, -⟩ := (r.runs hb hr).post hsized
    rw [ht] at hrun
    cases hrun
  · rw [refused_of_not_sized hb hr hsized] at hrun
    cases hrun
    exact ⟨hsized, rfl⟩

end Request

/-! ### Tracked values -/

/-- The request for the term of a result. -/
def IntOp.request : IntOp → Term .word → Term .word → Request .word
  | .add => .nary .add
  | .sub => .sub
  | .mul => .nary .mul
  | .div => .binary .sdiv
  | .rem => .binary .srem
  | .and => .nary .and
  | .or => .nary .or
  | .xor => .nary .xor
  | .shl => .binary .shl
  | .ashr => .binary .ashr
  | .lshr => .binary .lshr

def IntCompare.request : IntCompare → Term .word → Term .word → Request .bool
  | .lt => .compare .slt
  | .le => .compare .sle
  | .gt => .compare .sgt
  | .ge => .compare .sge
  | .eq => .compare .eq
  | .ne => .notEqual

namespace Operation

/-- The computation of the result's term, by guarded constructors that have to succeed. -/
def guardedTerm (r : Registers) : {k : Ty} → Operation k → Guarded (Term k)
  | _, .const v => lift (SymInt.const v).term
  | _, .unary op x => do MonadTerms.unary op (← lift (r.int x).term)
  | _, .binary op x y => do
    let s ← lift (r.int x).term
    let t ← lift (r.int y).term
    MonadTerms.surely (op.request s t).guarded
  | _, .ite g x y => do
    let q ← lift (r.bool g).term
    let s ← lift (r.int x).term
    let t ← lift (r.int y).term
    MonadTerms.surely (Request.ite q s t).guarded
  | _, .ofBool g => do
    let q ← lift (r.bool g).term
    let s ← lift (SymInt.const 1).term
    let t ← lift (SymInt.const 0).term
    MonadTerms.surely (Request.ite q s t).guarded
  | _, .truth v => lift (SymBool.const v).term
  | _, .compare op x y => do
    let s ← lift (r.int x).term
    let t ← lift (r.int y).term
    MonadTerms.surely (op.request s t).guarded
  | _, .not g => do MonadTerms.negate (← lift (r.bool g).term)
  | _, .join op g h => do
    let s ← lift (r.bool g).term
    let t ← lift (r.bool h).term
    lift (Build.join op s t)

/-- Performs the operation by guarded constructors. -/
def guarded (r : Registers) (o : Operation k) : Guarded (Tracked k.Value k) :=
  match o.path r with
  | none => pure { value := o.value r }
  | some p => do return .ofTerm (o.value r) (← o.guardedTerm r) p

end Operation

section Terms

variable {w : Nat} {x y : Term .word} (hb : b.Consistent) (hx : b.HoldsAt w x) (hy : b.HoldsAt w y)

include hb hx hy

theorem IntOp.agrees (op : IntOp) : Agrees (op.request x y).guarded (op.build x y) b := by
  have hwidth : x.width = y.width := hx.width.trans hy.width.symm
  cases op with
  | add => exact (add_agrees hb hx hy).sized .sizes hwidth
  | sub =>
      refine (negate_agrees y b hb hy.held).bind (Build.neg_runs hb hy) fun n c hle hc hn => ?_
      exact (add_agrees hc (hx.mono hle) hn.toHoldsAt).sized .sizes (hx.width.trans hn.width.symm)
  | mul => exact (mul_agrees hb hx hy).sized .sizes hwidth
  | div => exact (binary_agrees hx hy .sdiv).sized .sizes hwidth
  | rem => exact (binary_agrees hx hy .srem).sized .sizes hwidth
  | and => exact (and_agrees hb hx hy).sized .sizes hwidth
  | or => exact (or_agrees hb hx hy).sized .sizes hwidth
  | xor => exact (xor_agrees hb hx hy).sized .sizes hwidth
  | shl => exact (shift_agrees hx hy .shl).sized .sizes hwidth
  | ashr => exact (shift_agrees hx hy .ashr).sized .sizes hwidth
  | lshr => exact (shift_agrees hx hy .lshr).sized .sizes hwidth

theorem IntCompare.agrees (op : IntCompare) : Agrees (op.request x y).guarded (op.build x y) b := by
  have hwidth : x.width = y.width := hx.width.trans hy.width.symm
  have hcompare : ∀ op, Agrees (MonadTerms.sized .sizes x y (MonadTerms.compare op x y)) (Build.compare op x y) b :=
    fun op => (compare_agrees hx hy op).sized .sizes hwidth
  cases op with
  | lt => exact hcompare .slt
  | le => exact hcompare .sle
  | gt => exact hcompare .sgt
  | ge => exact hcompare .sge
  | eq => exact hcompare .eq
  | ne =>
      exact (hcompare .eq).bind (Build.compare_runs hb .eq hx hy) fun p c _ hc hp => negate_agrees p c hc hp.held

end Terms

theorem SymInt.term_held (hb : b.Consistent) {x : SymInt} (hx : Tracked.Held (k := .word) b x) :
    Build.Runs x.term b fun t c => c.HoldsAt intWidth t := by
  unfold SymInt.term
  cases ho : x.origin with
  | none => exact (Build.int_runs hb x.value.toInt intWidth []).imp fun t c _ _ ht => ht.toHoldsAt
  | some o =>
      obtain ⟨-, hheld, hsized⟩ := hx o ho
      exact Build.Runs.pure hb ⟨hheld, hsized⟩

theorem SymBool.term_held (hb : b.Consistent) {x : SymBool} (hx : Tracked.Held (k := .bool) b x) :
    Build.Runs x.term b fun t c => c.Holds t := by
  unfold SymBool.term
  cases ho : x.origin with
  | none => exact (Build.truth_runs hb x.value []).imp fun t c _ _ ht => ht.1.held
  | some o => exact Build.Runs.pure hb (hx o ho).2.1

/-- Two integers as operands of one constructor: their terms have one width. -/
theorem SymInt.pair_agrees {α : Type} {x y : SymInt} {gnext : Term .word → Term .word → Guarded α}
    {next : Term .word → Term .word → Build α} (hb : b.Consistent) (hx : Tracked.Held (k := .word) b x)
    (hy : Tracked.Held (k := .word) b y)
    (hnext : ∀ s t c, b ≤ c → c.Consistent → c.HoldsAt intWidth s → c.HoldsAt intWidth t →
      Agrees (gnext s t) (next s t) c) :
    Agrees (do let s ← lift x.term; let t ← lift y.term; gnext s t)
      (do let s ← x.term; let t ← y.term; next s t) b := by
  refine (Agrees.lift _).bind (SymInt.term_held hb hx) fun s c hle hc hs => ?_
  refine (Agrees.lift _).bind (SymInt.term_held hc (hy.mono hle)) fun t c' hle' hc' ht => ?_
  exact hnext s t c' (hle.trans hle') hc' (hs.mono hle') ht

namespace Operation

variable {r : Registers}

theorem term_agrees (hb : b.Consistent) (hr : r.Held b) (o : Operation k) :
    Agrees (o.guardedTerm r) (o.term r) b := by
  cases o with
  | const v => exact .lift _
  | unary op x =>
      exact (Agrees.lift _).bind (SymInt.term_held hb (hr.int x)) fun t c _ hc ht => unary_agrees hc op ht.held
  | binary op x y =>
      exact SymInt.pair_agrees hb (hr.int x) (hr.int y) fun s t c _ hc hs ht => (op.agrees hc hs ht).surely
  | ite g x y =>
      refine (Agrees.lift _).bind (SymBool.term_held hb (hr.bool g)) fun q c hle hc _ => ?_
      exact SymInt.pair_agrees hc ((hr.mono hle).int x) ((hr.mono hle).int y) fun s t c' _ _ hs ht =>
        ((ite_agrees hs ht q).sized .branchSizes (hs.width.trans ht.width.symm)).surely
  | ofBool g =>
      refine (Agrees.lift _).bind (SymBool.term_held hb (hr.bool g)) fun q c _ hc _ => ?_
      exact SymInt.pair_agrees hc (by rintro _ ⟨⟩) (by rintro _ ⟨⟩) fun s t c' _ _ hs ht =>
        ((ite_agrees hs ht q).sized .branchSizes (hs.width.trans ht.width.symm)).surely
  | truth v => exact .lift _
  | compare op x y =>
      exact SymInt.pair_agrees hb (hr.int x) (hr.int y) fun s t c _ hc hs ht => (op.agrees hc hs ht).surely
  | not g =>
      exact (Agrees.lift _).bind (SymBool.term_held hb (hr.bool g)) fun q c _ hc hq => negate_agrees q c hc hq
  | join op g h => rfl

/-- On values over held terms, no operation breaks off. -/
theorem agrees (hb : b.Consistent) (hr : r.Held b) (o : Operation k) : Agrees (o.guarded r) (o.run r) b := by
  rw [run_eq_derive]
  unfold guarded Tracked.derive
  cases o.path r with
  | none => exact .pure _
  | some p => exact (o.term_agrees hb hr).bind (o.term_held hb hr) fun t c _ _ _ => .pure _

end Operation

/-! ### Computations -/

/-- One step of a computation on tracked values, whose result is added to the registers. -/
inductive Task where
  | bind (path : Nat) (input : Input)
  | operation {k : Ty} (o : Operation k)

namespace Task

/-- Does the task. -/
def run (r : Registers) : Task → Build Registers
  | .bind path i => do return r.push (k := .word) (← i.track path)
  | .operation o => do return r.push (← o.run r)

/-- Does the task by guarded constructors. -/
def guarded (r : Registers) : Task → Guarded Registers
  | .bind path i => do return r.push (k := .word) (← lift (i.track path))
  | .operation o => do return r.push (← o.guarded r)

/-- Does the tasks one after the other. -/
def runAll (tasks : List Task) (r : Registers) : Build Registers := tasks.foldlM run r

def guardedAll (tasks : List Task) (r : Registers) : Guarded Registers := tasks.foldlM guarded r

variable {r : Registers}

theorem track_held (hb : b.Consistent) (path : Nat) (i : Input) :
    Build.Runs (i.track path) b fun x c => Tracked.Held (k := .word) c x := by
  let ρ : Valuation := fun _ w => BitVec.ofInt w i.value.toInt
  have hi : i.symbolic = true → ρ i.name intWidth = i.value.toBitVec ∧ (i.name, intWidth) ∈ [(i.name, intWidth)] :=
    fun _ => ⟨BitVec.ofInt_toInt, List.mem_singleton_self _⟩
  exact (Input.track_runs hb hi).imp fun x c _ _ hx => hx.held

theorem run_held (hb : b.Consistent) (hr : r.Held b) (task : Task) :
    Build.Runs (task.run r) b fun r' c => r'.Held c := by
  cases task with
  | bind path i =>
      exact Build.Runs.bind (track_held hb path i) fun x c hle hc hx => .pure hc ((hr.mono hle).push hx)
  | operation o =>
      exact Build.Runs.bind (o.run_held hb hr) fun x c hle hc hx => .pure hc ((hr.mono hle).push hx)

theorem agrees (hb : b.Consistent) (hr : r.Held b) (task : Task) : Agrees (task.guarded r) (task.run r) b := by
  cases task with
  | bind path i => rfl
  | operation o => exact (o.agrees hb hr).bind (o.run_held hb hr) fun x c _ _ _ => .pure _

/-- Whatever is bound and computed, nothing breaks off. -/
theorem agrees_all (tasks : List Task) : ∀ {b : Builder} {r : Registers}, b.Consistent → r.Held b →
    Agrees (guardedAll tasks r) (runAll tasks r) b := by
  induction tasks with
  | nil => exact fun _ _ => .pure _
  | cons task tasks ih =>
      intro b r hb hr
      exact (task.agrees hb hr).bind (task.run_held hb hr) fun r' c _ hc hr' => ih hc hr'

end Task

/-- In every builder that requests and evaluations lead to, a request on interned terms is answered if and only if its
operands have one width, by a term of the width that it asks for in which the words under each node have one width. The
constructor with all its checks ends like the one without them, so nothing is found wrong but operands of different
widths, and no computation on tracked values breaks off. -/
theorem width_discipline {scatter : List Nat → Nat} {b : Builder} (hb : Evolves { scatter } b) :
    (∀ {k : Ty} (r : Request k), r.Operands b.Holds →
      (r.Sized → ∃ t, (r.run b).1 = .ok t ∧ t.width = r.width ∧ t.Every Term.Uniform) ∧
      (¬r.Sized → (r.run b).1 = .error r.refusal) ∧
      r.guarded b = refusing r.run b ∧
      ∀ f, (r.guarded b).1 = .error f → ¬r.Sized ∧ f = .operands r.refusal) ∧
    ∀ tasks : List Task, Task.guardedAll tasks {} b = (.ok (Task.runAll tasks {} b).1, (Task.runAll tasks {} b).2) := by
  have hconsistent := hb.consistent
  refine ⟨fun r hr => ⟨fun hsized => ?_, Request.refused_of_not_sized hconsistent hr, r.guarded_eq hconsistent hr,
    fun f => Request.fault_eq hconsistent hr⟩, fun tasks => Task.agrees_all tasks hconsistent Registers.forall_empty⟩
  have hrun := r.runs hconsistent hr
  obtain ⟨t, ht, hheld, hmeets⟩ := hrun.post hsized
  exact ⟨t, ht, Request.width_of_meets hmeets,
    hrun.consistent.every (fun hu => (hrun.consistent.proper hu).uniform) hheld⟩

/-- The difference of two symbols of different widths is refused, a symbol is added to itself, and integers are computed
with in the builder that holds the symbols. -/
theorem width_discipline_of_two_widths :
    let x : Term .word := .symbol 1 "x" 8
    let y : Term .word := .symbol 2 "y" 16
    let b := ((Request.symbol "y" 16).run ((Request.symbol "x" 8).run {}).2).2
    let tasks : List Task := [.bind 0 ⟨"n", -5, true⟩, .bind 0 ⟨"m", 3, false⟩, .operation (.binary .sub 1 0),
      .operation (.compare .lt 2 0), .operation (.ite 0 1 2)]
    Evolves {} b ∧ b.Holds x ∧ b.Holds y ∧ ((Request.sub x y).run b).1 = .error .sizes ∧
      ((Request.sub x y).guarded b).1 = .error (.operands .sizes) ∧
      (∃ t, ((Request.nary .add x x).run b).1 = .ok t ∧ t.width = 8 ∧ t.Every Term.Uniform) ∧
      ∃ r, (Task.guardedAll tasks {} b).1 = .ok r ∧ r.ints.length = 4 := by
  intro x y b tasks
  have h₁ : Evolves {} ((Request.symbol "x" 8).run {}).2 := Evolves.refl.request (.symbol "x" 8) trivial
  have hx₁ : ((Request.symbol "x" 8).run {}).2.Holds x := Request.holds_of_run consistent_empty trivial trivial rfl
  have hb : Evolves {} b := h₁.request (.symbol "y" 16) trivial
  have hx : b.Holds x := hx₁.mono (Request.runs h₁.consistent (.symbol "y" 16) trivial).grows
  have hy : b.Holds y := Request.holds_of_run h₁.consistent trivial trivial rfl
  obtain ⟨hrequests, htasks⟩ := width_discipline hb
  obtain ⟨-, hrefused, hguarded, -⟩ := hrequests (.sub x y) ⟨hx, hy⟩
  have hwidths : ¬(Request.sub x y).Sized := by rintro ⟨⟩
  obtain ⟨hanswered, -⟩ := hrequests (.nary .add x x) ⟨hx, hx⟩
  refine ⟨hb, hx, hy, hrefused hwidths, ?_, hanswered rfl, (Task.runAll tasks {} b).1, ?_, ?_⟩
  · rw [hguarded]
    exact congrArg (Except.mapError Fault.operands) (hrefused hwidths)
  · rw [htasks]
  · decide +kernel

end Pathwise
