import Pathwise.Proofs.Evaluation

/-! Simplification keeps meaning. A request is one use of a constructor on terms that the builder
already holds. A builder evolves by requests and by evaluations, from an empty one that may take its
fingerprints by any function, and stays consistent. So in every builder that can come about a request
whose operands have one width is answered, and under every valuation the answer stands for the operation
that was asked for. Refused requests are part of the history as well: a difference has its second operand
negated before the widths are compared. -/

namespace Pathwise

open Builder

/-- One use of a constructor. -/
inductive Request : Ty → Type where
  | int (v : Int) (width : Nat) : Request .word
  | symbol (name : String) (width : Nat) : Request .word
  | unary (op : UnaryOp) (x : Term .word) : Request .word
  | nary (op : NaryOp) (x y : Term .word) : Request .word
  | sub (x y : Term .word) : Request .word
  | binary (op : BinaryOp) (x y : Term .word) : Request .word
  | ite (guard : Cond) (yes no : Term .word) : Request .word
  | truth (v : Bool) : Request .bool
  | compare (op : CompareOp) (x y : Term .word) : Request .bool
  | notEqual (x y : Term .word) : Request .bool
  | boolNot (p : Cond) : Request .bool
  | join (op : Connective) (p q : Cond) : Request .bool
  | all (ps : List Cond) : Request .bool

namespace Request

/-- The constructor at work. -/
def run {k : Ty} : Request k → Build (Except OperandError (Term k))
  | .int v width => .ok <$> Build.int v width
  | .symbol name width => .ok <$> Build.symbol name width
  | .unary op x => .ok <$> Build.unary op x
  | .nary op x y => Build.Checked.binary (Build.nary op) x y
  | .sub x y => Build.Checked.sub x y
  | .binary op x y => Build.Checked.binary (Build.binary op) x y
  | .ite guard yes no => Build.Checked.ite guard yes no
  | .truth v => .ok <$> Build.truth v
  | .compare op x y => Build.Checked.binary (Build.compare op) x y
  | .notEqual x y => Build.Checked.binary Build.notEqual x y
  | .boolNot p => .ok <$> Build.boolNot p
  | .join op p q => .ok <$> Build.join op p q
  | .all ps => .ok <$> Build.all ps

/-- Every operand has the property. -/
def Operands (P : ∀ {k : Ty}, Term k → Prop) {k : Ty} : Request k → Prop
  | .int .. | .symbol .. | .truth _ => True
  | .unary _ x => P x
  | .nary _ x y | .sub x y | .binary _ x y | .compare _ x y | .notEqual x y => P x ∧ P y
  | .ite guard yes no => P guard ∧ P yes ∧ P no
  | .boolNot p => P p
  | .join _ p q => P p ∧ P q
  | .all ps => ∀ p ∈ ps, P p

/-- The words among the operands that have to agree have one width. -/
def Sized {k : Ty} : Request k → Prop
  | .nary _ x y | .sub x y | .binary _ x y | .compare _ x y | .notEqual x y => x.width = y.width
  | .ite _ yes no => yes.width = no.width
  | _ => True

/-- What an answer has to stand for: the operation on what the operands stand for. -/
def Meets (ρ : Valuation) {k : Ty} : Request k → Term k → Prop
  | .int v width, t => t.width = width ∧ t.bits ρ width = BitVec.ofInt width v
  | .symbol name width, t => t.width = width ∧ t.bits ρ width = ρ name width
  | .unary op x, t => t.width = x.width ∧ t.bits ρ x.width = op.bits (x.bits ρ x.width)
  | .nary op x y, t =>
    t.width = x.width ∧ t.bits ρ x.width = op.bits (x.bits ρ x.width) (y.bits ρ x.width)
  | .sub x y, t => t.width = x.width ∧ t.bits ρ x.width = x.bits ρ x.width - y.bits ρ x.width
  | .binary op x y, t =>
    t.width = x.width ∧ t.bits ρ x.width = op.bits (x.bits ρ x.width) (y.bits ρ x.width)
  | .ite guard yes no, t =>
    t.width = yes.width ∧
      t.bits ρ yes.width = if guard.holds ρ then yes.bits ρ yes.width else no.bits ρ yes.width
  | .truth v, p => p.holds ρ = v
  | .compare op x y, p => p.holds ρ = op.bits (x.bits ρ x.width) (y.bits ρ x.width)
  | .notEqual x y, p => p.holds ρ = !(x.bits ρ x.width == y.bits ρ x.width)
  | .boolNot p, q => q.holds ρ = !p.holds ρ
  | .join op p q, r => r.holds ρ = op.apply (p.holds ρ) (q.holds ρ)
  | .all ps, r => r.holds ρ = ps.all (·.holds ρ)

/-- What a request ends with: if its operands have one width, a held answer of the right meaning. -/
def Answered {k : Ty} (r : Request k) (a : Except OperandError (Term k)) (c : Builder) : Prop :=
  r.Sized → ∃ t, a = .ok t ∧ c.Holds t ∧ ∀ ρ, r.Meets ρ t

end Request

namespace Build

variable {b : Builder}

theorem ok_runs {k : Ty} {act : Build (Term k)} {post : Term k → Builder → Prop} (h : Runs act b post) :
    Runs (Except.ok <$> act : Build (Except OperandError (Term k))) b fun a c => ∃ t, a = .ok t ∧ post t c :=
  ⟨h.consistent, h.grows, ⟨_, rfl, h.post⟩, fun c hc hle =>
    ⟨congrArg Except.ok (h.again c hc hle).1, (h.again c hc hle).2⟩⟩

theorem checked_runs (hb : b.Consistent) {k : Ty} {make : Term .word → Term .word → Build (Term k)}
    {x y : Term .word} {post : Term k → Builder → Prop} (h : x.width = y.width → Runs (make x y) b post) :
    Runs (Checked.binary make x y) b fun a c => x.width = y.width → ∃ t, a = .ok t ∧ post t c := by
  unfold Checked.binary
  split_ifs with hwidth
  · exact (ok_runs (h hwidth)).imp fun _ _ _ _ ha _ => ha
  · exact Runs.pure hb fun h => absurd h hwidth

end Build

namespace Request

open Build

variable {b : Builder}

theorem exists_of_word {w : Nat} {a : Except OperandError (Term .word)} {c : Builder}
    {f : Valuation → BitVec w} {names : List (String × Nat)} (h : ∃ t, a = .ok t ∧ c.MeansWord t f names) :
    ∃ t, a = .ok t ∧ c.Holds t ∧ ∀ ρ, t.width = w ∧ t.bits ρ w = f ρ := by
  obtain ⟨t, hok, ht⟩ := h
  exact ⟨t, hok, ht.held, fun ρ => ⟨ht.width, ht.bits ρ⟩⟩

theorem exists_of_cond {a : Except OperandError Cond} {c : Builder} {f : Valuation → Bool}
    {names : List (String × Nat)} (h : ∃ p, a = .ok p ∧ c.MeansCond p f names) :
    ∃ p, a = .ok p ∧ c.Holds p ∧ ∀ ρ, p.holds ρ = f ρ := by
  obtain ⟨p, hok, hp⟩ := h
  exact ⟨p, hok, hp.held, hp.holds⟩

theorem sub_runs (hb : b.Consistent) {x y : Term .word} (hx : b.Holds x) (hy : b.Holds y) :
    Runs (Checked.sub x y) b (Request.sub x y).Answered := by
  have hx' : b.HoldsAt x.width x := ⟨hx, rfl⟩
  refine Runs.bind (neg_runs hb ⟨hy, rfl⟩) fun n c hle hc hn => ?_
  refine (checked_runs hc fun hwidth => add_runs hc (hx'.mono hle) ⟨hn.held, hwidth.symm⟩).imp
    fun a c' _ _ ha hsized => ?_
  have hsized : x.width = y.width := hsized
  obtain ⟨t, hok, ht⟩ := ha (hsized.trans hn.width.symm)
  refine ⟨t, hok, ht.held, fun ρ => ⟨ht.width, ?_⟩⟩
  rw [ht.bits, hsized, hn.bits, BitVec.sub_eq_add_neg]

theorem ite_runs (hb : b.Consistent) {guard : Cond} {yes no : Term .word} (hguard : b.Holds guard)
    (hyes : b.Holds yes) (hno : b.Holds no) :
    Runs (Checked.ite guard yes no) b (Request.ite guard yes no).Answered := by
  unfold Checked.ite
  split_ifs with hwidth
  · exact (ok_runs (Build.ite_runs hb hguard ⟨hyes, rfl⟩ ⟨hno, hwidth.symm⟩)).imp
      fun a c _ _ ha _ => exists_of_word ha
  · exact Runs.pure hb fun h => absurd h hwidth

theorem all_runs (hb : b.Consistent) {ps : List Cond} (hps : ∀ p ∈ ps, b.Holds p) :
    Runs (Build.all ps) b fun r c => c.MeansCond r (fun ρ => ps.all (·.holds ρ)) (Term.freeConds ps) := by
  refine (Build.all_runs hb fun p hp => ⟨hps p hp, fun s hs => Term.mem_freeConds.mpr ⟨p, hp, hs⟩⟩).imp
    fun r c _ _ hr => hr.congr (fun ρ => ?_) (List.Subset.refl _)
  rw [Bool.eq_iff_iff, Connective.total_iff_and, List.all_eq_true, List.forall_mem_map]

/-- Every request on held operands keeps the builder consistent and is answered. -/
theorem runs {k : Ty} (hb : b.Consistent) (r : Request k) (hr : r.Operands b.Holds) :
    Runs r.run b r.Answered := by
  cases r with
  | int v width =>
      exact (ok_runs (int_runs hb v width [])).imp fun a c _ _ ha _ => exists_of_word ha
  | symbol name width =>
      refine (ok_runs (symbol_runs hb name width)).imp fun a c _ _ ha _ => ?_
      obtain ⟨t, hok, ht, -⟩ := ha
      exact exists_of_word ⟨t, hok, ht⟩
  | unary op x =>
      exact (ok_runs (unary_runs hb op ⟨hr, rfl⟩)).imp fun a c _ _ ha _ => exists_of_word ha
  | nary op x y =>
      exact (checked_runs hb fun h => nary_runs hb ⟨hr.1, rfl⟩ ⟨hr.2, h.symm⟩ op).imp
        fun a c _ _ ha hsized => exists_of_word (ha hsized)
  | sub x y => exact sub_runs hb hr.1 hr.2
  | binary op x y =>
      exact (checked_runs hb fun h => binary_runs hb ⟨hr.1, rfl⟩ ⟨hr.2, h.symm⟩ op).imp
        fun a c _ _ ha hsized => exists_of_word (ha hsized)
  | ite guard yes no => exact ite_runs hb hr.1 hr.2.1 hr.2.2
  | truth v =>
      refine (ok_runs (truth_runs hb v [])).imp fun a c _ _ ha _ => ?_
      obtain ⟨p, hok, hp, -⟩ := ha
      exact exists_of_cond ⟨p, hok, hp⟩
  | compare op x y =>
      exact (checked_runs hb fun h => compare_runs hb op ⟨hr.1, rfl⟩ ⟨hr.2, h.symm⟩).imp
        fun a c _ _ ha hsized => exists_of_cond (ha hsized)
  | notEqual x y =>
      exact (checked_runs hb fun h => notEqual_runs hb ⟨hr.1, rfl⟩ ⟨hr.2, h.symm⟩).imp
        fun a c _ _ ha hsized => exists_of_cond (ha hsized)
  | boolNot p => exact (ok_runs (boolNot_runs hb hr)).imp fun a c _ _ ha _ => exists_of_cond ha
  | join op p q => exact (ok_runs (join_runs hb hr.1 hr.2 op)).imp fun a c _ _ ha _ => exists_of_cond ha
  | all ps => exact (ok_runs (all_runs hb hr)).imp fun a c _ _ ha _ => exists_of_cond ha

theorem holds_of_run {k : Ty} {r : Request k} {t : Term k} (hb : b.Consistent) (hr : r.Operands b.Holds)
    (hsized : r.Sized) (h : (r.run b).1 = .ok t) : (r.run b).2.Holds t := by
  obtain ⟨u, hu, hheld, -⟩ := (r.runs hb hr).post hsized
  cases h.symm.trans hu
  exact hheld

end Request

/-! ### Histories -/

/-- Requests and evaluations turn one builder into another. -/
inductive Builder.Evolves (b : Builder) : Builder → Prop where
  | refl : Evolves b b
  | request {c : Builder} (h : Evolves b c) {k : Ty} (r : Request k) (hr : r.Operands c.Holds) :
      Evolves b (r.run c).2
  | eval {c : Builder} (h : Evolves b c) (m : Model) {k : Ty} {t : Term k} (ht : c.Holds t) :
      Evolves b (Build.eval m t c).2

theorem Builder.Evolves.runs {b c : Builder} (hb : b.Consistent) (h : b.Evolves c) : c.Consistent ∧ b ≤ c := by
  induction h with
  | refl => exact ⟨hb, le_rfl⟩
  | request h r hr ih =>
      have hrun := r.runs ih.1 hr
      exact ⟨hrun.consistent, ih.2.trans hrun.grows⟩
  | eval h m ht ih =>
      obtain ⟨hconsistent, hgrows, -⟩ := Build.eval_spec ih.1 ht m
      exact ⟨hconsistent, ih.2.trans hgrows⟩

theorem Builder.Evolves.consistent {scatter : List Nat → Nat} {b : Builder} (h : Evolves { scatter } b) :
    b.Consistent :=
  (h.runs consistent_empty).1

/-- A request on held operands of one width is answered by a held term that stands for the operation
under every valuation. -/
theorem simplification_preserves_meaning {scatter : List Nat → Nat} {b : Builder} (hb : Evolves { scatter } b)
    {k : Ty} (r : Request k) (hr : r.Operands b.Holds) (hsized : r.Sized) :
    ∃ t, (r.run b).1 = .ok t ∧ (r.run b).2.Holds t ∧ ∀ ρ, r.Meets ρ t :=
  (r.runs hb.consistent hr).post hsized

/-- The sum of a symbol and its held opposite, which cancel, in a builder whose fingerprints all collide. -/
theorem simplification_preserves_meaning_of_opposites :
    let x : Term .word := .symbol 1 "x" 8
    let sum : Request .word := .nary .add x (.unary 2 .neg x)
    let b₁ := ((Request.symbol "x" 8).run { scatter := fun _ => 0 }).2
    let b := ((Request.unary .neg x).run b₁).2
    Evolves { scatter := fun _ => 0 } b ∧ sum.Operands b.Holds ∧ sum.Sized ∧
      ∃ t, (sum.run b).1 = .ok t ∧ (sum.run b).2.Holds t ∧ ∀ ρ, sum.Meets ρ t := by
  intro x sum b₁ b
  have hb₁ : Evolves { scatter := fun _ => 0 } b₁ := Evolves.refl.request (.symbol "x" 8) trivial
  have hx : b₁.Holds x := Request.holds_of_run consistent_empty trivial trivial rfl
  have hb : Evolves { scatter := fun _ => 0 } b := hb₁.request (.unary .neg x) hx
  have hr : sum.Operands b.Holds :=
    ⟨hx.mono (Request.runs hb₁.consistent (.unary .neg x) hx).grows,
      Request.holds_of_run hb₁.consistent hx trivial rfl⟩
  exact ⟨hb, hr, rfl, simplification_preserves_meaning hb sum hr rfl⟩

end Pathwise
