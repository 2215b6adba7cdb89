import Pathwise.Proofs.MachineInts

/-! Operations on tracked values. An operation computes its value natively and, where an operand is
symbolic, builds a term on the path of that operand; all of them are `Tracked.derive` on a value, a path
and a computation of a term. Two things follow for every operation at once. If terms and values of the
operands agree under a valuation, so do those of the result. And in two runs whose operands have the same
terms, and the same values where there is no term, the results have the same terms again: what is built is
built from the terms alone. -/

namespace Pathwise

open Builder

/-- The native values that terms of a sort are compared with. -/
@[reducible] def Ty.Value : Ty → Type
  | .word => Int64
  | .bool => Bool

/-- Under the valuation the term has the value. -/
def Term.Gives (ρ : Valuation) : {k : Ty} → Term k → k.Value → Prop
  | .word, t, v => t.width = intWidth ∧ t.bits ρ intWidth = v.toBitVec
  | .bool, p, v => p.holds ρ = v

/-- The term is held, has the value, and no symbols but those named. -/
structure Builder.Knows (b : Builder) (ρ : Valuation) (names : List (String × Nat)) {k : Ty} (t : Term k)
    (v : k.Value) : Prop where
  held : b.Holds t
  gives : t.Gives ρ v
  free : t.free ⊆ names

variable {ρ σ : Valuation} {names : List (String × Nat)} {p : Nat} {b c : Builder} {k : Ty}

theorem Builder.Knows.mono (h : b ≤ c) {t : Term k} {v : k.Value} (ht : b.Knows ρ names t v) :
    c.Knows ρ names t v :=
  ⟨ht.held.mono h, ht.gives, ht.free⟩

theorem Builder.Knows.holdsAt {t : Term .word} {v : Int64} (ht : b.Knows ρ names t v) : b.HoldsAt intWidth t :=
  ⟨ht.held, ht.gives.1⟩

theorem Builder.MeansWord.knows {t : Term .word} {f : Valuation → BitVec intWidth}
    {names' : List (String × Nat)} (ht : b.MeansWord t f names') {v : Int64} (hv : f ρ = v.toBitVec)
    (hnames : names' ⊆ names) : b.Knows ρ names t v :=
  ⟨ht.held, ⟨ht.width, (ht.bits ρ).trans hv⟩, List.Subset.trans ht.free hnames⟩

theorem Builder.MeansCond.knows {q : Cond} {f : Valuation → Bool} {names' : List (String × Nat)}
    (hq : b.MeansCond q f names') {v : Bool} (hv : f ρ = v) (hnames : names' ⊆ names) : b.Knows ρ names q v :=
  ⟨hq.held, (hq.holds ρ).trans hv, List.Subset.trans hq.free hnames⟩

/-- A constant has one value. -/
theorem Term.Gives.eq_of_isConst {t : Term k} (hconst : t.isConst = true) {v u : k.Value} (hv : t.Gives ρ v)
    (hu : t.Gives σ u) : v = u := by
  cases t <;> cases hconst
  case const i w => exact Int64.toBitVec_inj.mp (hv.2.symm.trans hu.2)
  case truth i w => exact hv.symm.trans hu

namespace Tracked

/-- The value, on its path if there is one, with the term that the computation builds. -/
def derive (v : k.Value) (path : Option Nat) (act : Build (Term k)) : Build (Tracked k.Value k) :=
  match path with
  | none => pure { value := v }
  | some p => do return .ofTerm v (← act) p

/-- The term of the value, if there is one, lies on the path, is no constant and has the value. -/
def Sound (b : Builder) (ρ : Valuation) (names : List (String × Nat)) (p : Nat) (x : Tracked k.Value k) : Prop :=
  ∀ o, x.origin = some o → o.path = p ∧ o.term.isConst = false ∧ b.Knows ρ names o.term x.value

/-- The value, if it has a term, lies on the path. -/
def OnPath (p : Nat) (x : Tracked k.Value k) : Prop := ∀ o, x.origin = some o → o.path = p

/-- The two values have the same term, or no term and are the same. -/
def Alike (x y : Tracked k.Value k) : Prop := x.origin = y.origin ∧ (x.origin = none → x.value = y.value)

theorem Sound.mono (h : b ≤ c) {x : Tracked k.Value k} (hx : x.Sound b ρ names p) : x.Sound c ρ names p := by
  intro o ho
  obtain ⟨hpath, hconst, hknows⟩ := hx o ho
  exact ⟨hpath, hconst, hknows.mono h⟩

theorem sound_of_value (v : k.Value) : Sound b ρ names p { value := v } := nofun

theorem Sound.onPath {x : Tracked k.Value k} (hx : x.Sound b ρ names p) : x.OnPath p := fun o ho => (hx o ho).1

theorem OnPath.path {x : Tracked k.Value k} (hx : x.OnPath p) {q : Nat} (h : x.path? = some q) : q = p := by
  obtain ⟨o, ho, rfl⟩ := Option.map_eq_some_iff.mp h
  exact hx o ho

theorem OnPath.path_or {l : Ty} {x : Tracked k.Value k} {y : Tracked l.Value l} (hx : x.OnPath p)
    (hy : y.OnPath p) {q : Nat} (h : x.path?.or y.path? = some q) : q = p := by
  rcases Option.or_eq_some_iff.mp h with h | ⟨-, h⟩
  · exact hx.path h
  · exact hy.path h

theorem sound_ofTerm {v : k.Value} {t : Term k} (h : b.Knows ρ names t v) : Sound b ρ names p (ofTerm v t p) := by
  intro o ho
  unfold ofTerm at ho ⊢
  split_ifs at ho ⊢ with hconst
  cases ho
  exact ⟨rfl, Bool.not_eq_true _ ▸ hconst, h⟩

theorem Alike.refl (x : Tracked k.Value k) : x.Alike x := ⟨rfl, fun _ => rfl⟩

theorem Alike.path_eq {x y : Tracked k.Value k} (h : x.Alike y) : x.path? = y.path? := by
  rw [path?, path?, h.1]

theorem Alike.value_eq {x y : Tracked k.Value k} (h : x.Alike y) (hpath : x.path? = none) :
    x.value = y.value :=
  h.2 (Option.map_eq_none_iff.mp hpath)

@[simp] theorem value_ofTerm (v : k.Value) (t : Term k) (q : Nat) : (ofTerm v t q).value = v := by
  unfold ofTerm
  split_ifs <;> rfl

/-- In any builder, the value of a derived result is the one it was given. -/
theorem value_derive (v : k.Value) (path : Option Nat) (act : Build (Term k)) (b : Builder) :
    (derive v path act b).1.value = v := by
  cases path with
  | none => rfl
  | some q => exact value_ofTerm v (act b).1 q

theorem onPath_derive (v : k.Value) {path : Option Nat} (act : Build (Term k)) (b : Builder)
    (hpath : ∀ q, path = some q → q = p) : (derive v path act b).1.OnPath p := by
  cases path with
  | none => exact nofun
  | some q =>
      change (ofTerm v (act b).1 q).OnPath p
      unfold ofTerm
      split_ifs
      · exact nofun
      · rintro _ ⟨⟩
        exact hpath q rfl

/-- What is derived from a term of the right value is sound. -/
theorem derive_runs (hb : b.Consistent) {v : k.Value} {path : Option Nat} {act : Build (Term k)}
    (hpath : ∀ q, path = some q → q = p) (hact : Build.Runs act b fun t c => c.Knows ρ names t v) :
    Build.Runs (derive v path act) b fun x c => x.Sound c ρ names p := by
  cases path with
  | none => exact Build.Runs.pure hb (sound_of_value v)
  | some q =>
      rw [← hpath q rfl]
      refine Build.Runs.bind hact fun t c _ hc ht => Build.Runs.pure hc ?_
      exact sound_ofTerm ht

/-- Deriving again in a later builder gives the same term, for whatever value it now has. -/
theorem derive_again {v u : k.Value} {path : Option Nat} {act : Build (Term k)}
    (hact : Build.Runs act b fun t c => c.Knows ρ names t v) (hc : c.Consistent)
    (hle : (derive v path act b).2 ≤ c) (hagain : (act c).1.Gives σ u)
    (hvalue : path = none → v = u) :
    (derive v path act b).1.Alike (derive u path act c).1 ∧ (derive u path act c).2.SameTable c := by
  cases path with
  | none => exact ⟨⟨rfl, fun _ => hvalue rfl⟩, .refl c⟩
  | some q =>
      obtain ⟨hval, htable⟩ := hact.again c hc hle
      refine ⟨?_, htable⟩
      change (ofTerm v (act b).1 q).Alike (ofTerm u (act c).1 q)
      rw [hval] at hagain ⊢
      unfold ofTerm
      split_ifs with hconst
      · exact ⟨rfl, fun _ => hact.post.gives.eq_of_isConst hconst hagain⟩
      · exact ⟨rfl, nofun⟩

end Tracked

/-! ### Operands -/

namespace SymInt

abbrev Sound (b : Builder) (ρ : Valuation) (names : List (String × Nat)) (p : Nat) (x : SymInt) : Prop :=
  Tracked.Sound (k := .word) b ρ names p x

theorem term_runs (hb : b.Consistent) {x : SymInt} (hx : x.Sound b ρ names p) :
    Build.Runs x.term b fun t c => c.Knows (k := .word) ρ names t x.value := by
  unfold term
  cases ho : x.origin with
  | none =>
      refine (Build.int_runs hb x.value.toInt intWidth []).imp fun t c _ _ ht => ?_
      exact ht.knows BitVec.ofInt_toInt (List.nil_subset _)
  | some o => exact Build.Runs.pure hb (hx o ho).2.2

theorem term_congr {x y : SymInt} (h : Tracked.Alike (k := .word) x y) : x.term = y.term := by
  unfold term
  rw [← h.1]
  cases ho : x.origin with
  | none => rw [h.2 ho]
  | some o => rfl

theorem unary_eq_derive (op : UnaryOp) (x : SymInt) :
    unary op x = Tracked.derive (k := .word) (op.applyInt x.value) x.path? (do Build.unary op (← x.term)) := by
  unfold unary Tracked.derive Tracked.path? term
  cases x.origin <;> rfl

theorem binary_eq_derive (op : IntOp) (x y : SymInt) :
    binary op x y = Tracked.derive (k := .word) (op.apply x.value y.value) (x.path?.or y.path?) (do
      let s ← x.term
      let t ← y.term
      op.build s t) := by
  unfold binary Tracked.derive
  cases x.path?.or y.path? <;> rfl

theorem compare_eq_derive (op : IntCompare) (x y : SymInt) :
    compare op x y = Tracked.derive (k := .bool) (op.apply x.value y.value) (x.path?.or y.path?) (do
      let s ← x.term
      let t ← y.term
      op.build s t) := by
  unfold compare Tracked.derive
  cases x.path?.or y.path? <;> rfl

theorem ite_eq_derive (g : SymBool) (x y : SymInt) :
    ite g x y = Tracked.derive (k := .word) (if g.value then x.value else y.value)
      ((x.path?.or y.path?).or g.path?) (do
        let q ← g.term
        let s ← x.term
        let t ← y.term
        Build.ite q s t) := by
  unfold ite Tracked.derive
  cases (x.path?.or y.path?).or g.path? <;> rfl

end SymInt

namespace SymBool

abbrev Sound (b : Builder) (ρ : Valuation) (names : List (String × Nat)) (p : Nat) (x : SymBool) : Prop :=
  Tracked.Sound (k := .bool) b ρ names p x

theorem term_runs (hb : b.Consistent) {x : SymBool} (hx : x.Sound b ρ names p) :
    Build.Runs x.term b fun t c => c.Knows (k := .bool) ρ names t x.value := by
  unfold term
  cases ho : x.origin with
  | none => exact (Build.truth_runs hb x.value []).imp fun t c _ _ ht => ht.1.knows rfl (List.nil_subset _)
  | some o => exact Build.Runs.pure hb (hx o ho).2.2

theorem term_congr {x y : SymBool} (h : Tracked.Alike (k := .bool) x y) : x.term = y.term := by
  unfold term
  rw [← h.1]
  cases ho : x.origin with
  | none => rw [h.2 ho]
  | some o => rfl

theorem not_eq_derive (x : SymBool) :
    not x = Tracked.derive (k := .bool) (!x.value) x.path? (do Build.boolNot (← x.term)) := by
  unfold not Tracked.derive Tracked.path? term
  cases x.origin <;> rfl

theorem join_eq_derive (op : Connective) (x y : SymBool) :
    join op x y = Tracked.derive (k := .bool) (op.apply x.value y.value) (x.path?.or y.path?) (do
      let s ← x.term
      let t ← y.term
      Build.join op s t) := by
  unfold join Tracked.derive
  cases x.path?.or y.path? <;> rfl

end SymBool

/-! ### Operations -/

/-- The values that a computation has at hand, integers and truth values apart. -/
structure Registers where
  ints : List SymInt := []
  bools : List SymBool := []

namespace Registers

def values (r : Registers) : (k : Ty) → List (Tracked k.Value k)
  | .word => r.ints
  | .bool => r.bools

/-- The integer of a number; one that was never computed is 0. -/
def int (r : Registers) (i : Nat) : SymInt := r.ints[i]?.getD (.const 0)

def bool (r : Registers) (i : Nat) : SymBool := r.bools[i]?.getD (.const false)

/-- Adds a value under the next number of its sort. -/
def push (r : Registers) : {k : Ty} → Tracked k.Value k → Registers
  | .word, x => { r with ints := r.ints ++ [x] }
  | .bool, x => { r with bools := r.bools ++ [x] }

/-- A property of all values at hand. -/
def Forall (P : (k : Ty) → Tracked k.Value k → Prop) (r : Registers) : Prop := ∀ k, ∀ x ∈ r.values k, P k x

def Sound (b : Builder) (ρ : Valuation) (names : List (String × Nat)) (p : Nat) : Registers → Prop :=
  Forall fun _ x => x.Sound b ρ names p

def OnPath (p : Nat) : Registers → Prop := Forall fun _ x => x.OnPath p

def Alike (r s : Registers) : Prop := ∀ k, List.Forall₂ Tracked.Alike (r.values k) (s.values k)

section

variable {P : (k : Ty) → Tracked k.Value k → Prop} {r : Registers}

theorem forall_empty : Forall P {} := fun k x hx => by cases k <;> cases hx

theorem Forall.push (hr : r.Forall P) {x : Tracked k.Value k} (hx : P k x) : (r.push x).Forall P := by
  intro l y hy
  cases k <;> cases l
  case word.bool => exact hr .bool y hy
  case bool.word => exact hr .word y hy
  all_goals
    rcases List.mem_append.mp hy with hy | hy
    · exact hr _ y hy
    · rw [List.mem_singleton.mp hy]
      exact hx

theorem Forall.int (hr : r.Forall P) (h : P .word (SymInt.const 0)) (i : Nat) : P .word (r.int i) := by
  unfold Registers.int
  cases hi : r.ints[i]? with
  | none => exact h
  | some x => exact hr .word x (List.mem_of_getElem? hi)

theorem Forall.bool (hr : r.Forall P) (h : P .bool (SymBool.const false)) (i : Nat) : P .bool (r.bool i) := by
  unfold Registers.bool
  cases hi : r.bools[i]? with
  | none => exact h
  | some x => exact hr .bool x (List.mem_of_getElem? hi)

end

theorem Sound.mono (h : b ≤ c) {r : Registers} (hr : r.Sound b ρ names p) : r.Sound c ρ names p :=
  fun k x hx => (hr k x hx).mono h

theorem Sound.onPath {r : Registers} (hr : r.Sound b ρ names p) : r.OnPath p := fun k x hx => (hr k x hx).onPath

theorem Sound.int {r : Registers} (hr : r.Sound b ρ names p) (i : Nat) : (r.int i).Sound b ρ names p :=
  Forall.int hr (Tracked.sound_of_value (k := .word) 0) i

theorem Sound.bool {r : Registers} (hr : r.Sound b ρ names p) (i : Nat) : (r.bool i).Sound b ρ names p :=
  Forall.bool hr (Tracked.sound_of_value (k := .bool) false) i

theorem OnPath.int {r : Registers} (hr : r.OnPath p) (i : Nat) : Tracked.OnPath (k := .word) p (r.int i) :=
  Forall.int hr nofun i

theorem OnPath.bool {r : Registers} (hr : r.OnPath p) (i : Nat) : Tracked.OnPath (k := .bool) p (r.bool i) :=
  Forall.bool hr nofun i

theorem alike_refl (r : Registers) : r.Alike r := fun _ => List.forall₂_same.mpr fun x _ => .refl x

theorem Alike.push {r s : Registers} (h : r.Alike s) {x y : Tracked k.Value k} (hxy : x.Alike y) :
    (r.push x).Alike (s.push y) := by
  intro l
  cases k <;> cases l
  case word.bool => exact h .bool
  case bool.word => exact h .word
  all_goals exact List.rel_append (h _) (.cons hxy .nil)

theorem getD_alike {xs ys : List (Tracked k.Value k)} (h : List.Forall₂ Tracked.Alike xs ys)
    (d : Tracked k.Value k) (i : Nat) : (xs[i]?.getD d).Alike (ys[i]?.getD d) := by
  induction h generalizing i with
  | nil => exact .refl d
  | cons hxy _ ih =>
      cases i with
      | zero => exact hxy
      | succ i => exact ih i

theorem Alike.int {r s : Registers} (h : r.Alike s) (i : Nat) :
    Tracked.Alike (k := .word) (r.int i) (s.int i) :=
  getD_alike (h .word) (SymInt.const 0) i

theorem Alike.bool {r s : Registers} (h : r.Alike s) (i : Nat) :
    Tracked.Alike (k := .bool) (r.bool i) (s.bool i) :=
  getD_alike (h .bool) (SymBool.const false) i

end Registers

/-- One operation on the values at hand. -/
inductive Operation : Ty → Type where
  | const (v : Int64) : Operation .word
  | unary (op : UnaryOp) (x : Nat) : Operation .word
  | binary (op : IntOp) (x y : Nat) : Operation .word
  | ite (g x y : Nat) : Operation .word
  | ofBool (g : Nat) : Operation .word
  | truth (v : Bool) : Operation .bool
  | compare (op : IntCompare) (x y : Nat) : Operation .bool
  | not (g : Nat) : Operation .bool
  | join (op : Connective) (g h : Nat) : Operation .bool

namespace Operation

/-- Performs the operation. -/
def run (r : Registers) : {k : Ty} → Operation k → Build (Tracked k.Value k)
  | _, .const v => pure (SymInt.const v)
  | _, .unary op x => SymInt.unary op (r.int x)
  | _, .binary op x y => SymInt.binary op (r.int x) (r.int y)
  | _, .ite g x y => SymInt.ite (r.bool g) (r.int x) (r.int y)
  | _, .ofBool g => SymInt.ofBool (r.bool g)
  | _, .truth v => pure (SymBool.const v)
  | _, .compare op x y => SymInt.compare op (r.int x) (r.int y)
  | _, .not g => SymBool.not (r.bool g)
  | _, .join op g h => SymBool.join op (r.bool g) (r.bool h)

/-- The value of the result. -/
def value (r : Registers) : {k : Ty} → Operation k → k.Value
  | _, .const v => v
  | _, .unary op x => op.applyInt (r.int x).value
  | _, .binary op x y => op.apply (r.int x).value (r.int y).value
  | _, .ite g x y => if (r.bool g).value then (r.int x).value else (r.int y).value
  | _, .ofBool g => if (r.bool g).value then (1 : Int64) else 0
  | _, .truth v => v
  | _, .compare op x y => op.apply (r.int x).value (r.int y).value
  | _, .not g => !(r.bool g).value
  | _, .join op g h => op.apply (r.bool g).value (r.bool h).value

/-- The path of the result, if an operand is symbolic. -/
def path (r : Registers) : {k : Ty} → Operation k → Option Nat
  | _, .const _ | _, .truth _ => none
  | _, .unary _ x => (r.int x).path?
  | _, .binary _ x y | _, .compare _ x y => (r.int x).path?.or (r.int y).path?
  | _, .ite g x y => ((r.int x).path?.or (r.int y).path?).or (r.bool g).path?
  | _, .ofBool g => (none : Option Nat).or (r.bool g).path?
  | _, .not g => (r.bool g).path?
  | _, .join _ g h => (r.bool g).path?.or (r.bool h).path?

/-- The computation of the result's term. -/
def term (r : Registers) : {k : Ty} → Operation k → Build (Term k)
  | _, .const v => (SymInt.const v).term
  | _, .unary op x => do Build.unary op (← (r.int x).term)
  | _, .binary op x y => do
    let s ← (r.int x).term
    let t ← (r.int y).term
    op.build s t
  | _, .ite g x y => do
    let q ← (r.bool g).term
    let s ← (r.int x).term
    let t ← (r.int y).term
    Build.ite q s t
  | _, .ofBool g => do
    let q ← (r.bool g).term
    let s ← (SymInt.const 1).term
    let t ← (SymInt.const 0).term
    Build.ite q s t
  | _, .truth v => (SymBool.const v).term
  | _, .compare op x y => do
    let s ← (r.int x).term
    let t ← (r.int y).term
    op.build s t
  | _, .not g => do Build.boolNot (← (r.bool g).term)
  | _, .join op g h => do
    let s ← (r.bool g).term
    let t ← (r.bool h).term
    Build.join op s t

variable {r s : Registers}

theorem run_eq_derive (r : Registers) (o : Operation k) :
    o.run r = Tracked.derive (o.value r) (o.path r) (o.term r) := by
  cases o with
  | const v => rfl
  | unary op x => exact SymInt.unary_eq_derive op _
  | binary op x y => exact SymInt.binary_eq_derive op _ _
  | ite g x y => exact SymInt.ite_eq_derive _ _ _
  | ofBool g => exact SymInt.ite_eq_derive _ (SymInt.const 1) (SymInt.const 0)
  | truth v => rfl
  | compare op x y => exact SymInt.compare_eq_derive op _ _
  | not g => exact SymBool.not_eq_derive _
  | join op g h => exact SymBool.join_eq_derive op _ _

theorem path_eq (hr : r.OnPath p) (o : Operation k) {q : Nat} (h : o.path r = some q) : q = p := by
  cases o with
  | const v => cases h
  | unary op x => exact (hr.int x).path h
  | binary op x y => exact (hr.int x).path_or (hr.int y) h
  | ite g x y =>
      rcases Option.or_eq_some_iff.mp h with h | ⟨-, h⟩
      · exact (hr.int x).path_or (hr.int y) h
      · exact (hr.bool g).path h
  | ofBool g => exact (hr.bool g).path h
  | truth v => cases h
  | compare op x y => exact (hr.int x).path_or (hr.int y) h
  | not g => exact (hr.bool g).path h
  | join op g h' => exact (hr.bool g).path_or (hr.bool h') h

theorem run_onPath (hr : r.OnPath p) (o : Operation k) (b : Builder) : (o.run r b).1.OnPath p := by
  rw [run_eq_derive]
  exact Tracked.onPath_derive _ _ b fun _ h => path_eq hr o h

/-- In any builder, the result has its native value. -/
theorem value_run (r : Registers) (o : Operation k) (b : Builder) : (o.run r b).1.value = o.value r := by
  rw [run_eq_derive, Tracked.value_derive]

/-- Two operands built one after the other. -/
theorem pair_runs {l : Ty} {α : Type} {act : Build (Term k)} {act' : Build (Term l)}
    {v : k.Value} {u : l.Value} {next : Term k → Term l → Build α} {post : α → Builder → Prop}
    (h : Build.Runs act b fun t c => c.Knows ρ names t v)
    (h' : ∀ c, b ≤ c → c.Consistent → Build.Runs act' c fun t c => c.Knows ρ names t u)
    (hnext : ∀ t t' c, b ≤ c → c.Consistent → c.Knows ρ names t v → c.Knows ρ names t' u →
      Build.Runs (next t t') c post) :
    Build.Runs (do let t ← act; let t' ← act'; next t t') b post := by
  refine Build.Runs.bind h fun t c hle hc ht => ?_
  refine Build.Runs.bind (h' c hle hc) fun t' c' hle' hc' ht' => ?_
  exact hnext t t' c' (hle.trans hle') hc' (ht.mono hle') ht'

theorem ite_knows (hb : b.Consistent) {g : Cond} {x y : Term .word} {v : Bool} {i j : Int64}
    (hg : b.Knows (k := .bool) ρ names g v) (hx : b.Knows (k := .word) ρ names x i)
    (hy : b.Knows (k := .word) ρ names y j) :
    Build.Runs (Build.ite g x y) b fun t c => c.Knows (k := .word) ρ names t (if v then i else j) := by
  refine (Build.ite_runs hb hg.held hx.holdsAt hy.holdsAt).imp fun t c _ _ ht => ht.knows ?_ ?_
  · have hg : g.holds ρ = v := hg.gives
    rw [hg, hx.gives.2, hy.gives.2]
    cases v <;> rfl
  · exact List.append_subset.mpr ⟨List.append_subset.mpr ⟨hg.free, hx.free⟩, hy.free⟩

/-- The term of the result has its value. -/
theorem term_runs (hb : b.Consistent) (hr : r.Sound b ρ names p) (o : Operation k) :
    Build.Runs (o.term r) b fun t c => c.Knows ρ names t (o.value r) := by
  cases o with
  | const v => exact SymInt.term_runs hb (Tracked.sound_of_value (k := .word) (p := p) v)
  | unary op x =>
      refine Build.Runs.bind (SymInt.term_runs hb (hr.int x)) fun t c _ hc ht => ?_
      refine (Build.unary_runs hc op ht.holdsAt).imp fun t' c' _ _ ht' => ht'.knows ?_ ht.free
      rw [ht.gives.2]
      exact (UnaryOp.toBitVec_applyInt op _).symm
  | binary op x y =>
      refine pair_runs (SymInt.term_runs hb (hr.int x))
        (fun c hle hc => SymInt.term_runs hc ((hr.mono hle).int y)) fun s t c _ hc hs ht => ?_
      refine (Build.intOp_runs hc op hs.holdsAt ht.holdsAt).imp fun t' c' _ _ ht' => ht'.knows ?_ ?_
      · rw [hs.gives.2, ht.gives.2]
        exact (IntOp.toBitVec_apply op _ _).symm
      · exact List.append_subset.mpr ⟨hs.free, ht.free⟩
  | ite g x y =>
      refine Build.Runs.bind (SymBool.term_runs hb (hr.bool g)) fun q c hle hc hq => ?_
      refine pair_runs (SymInt.term_runs hc ((hr.mono hle).int x))
        (fun c' hle' hc' => SymInt.term_runs hc' ((hr.mono (hle.trans hle')).int y)) fun s t c' hle' hc' hs ht => ?_
      exact ite_knows hc' (hq.mono hle') hs ht
  | ofBool g =>
      have hconst : ∀ (v : Int64) c, (SymInt.const v).Sound c ρ names p := fun v _ =>
        Tracked.sound_of_value (k := .word) v
      refine Build.Runs.bind (SymBool.term_runs hb (hr.bool g)) fun q c _ hc hq => ?_
      refine pair_runs (SymInt.term_runs hc (hconst 1 c)) (fun c' _ hc' => SymInt.term_runs hc' (hconst 0 c'))
        fun s t c' hle' hc' hs ht => ?_
      exact ite_knows hc' (hq.mono hle') hs ht
  | truth v => exact SymBool.term_runs hb (Tracked.sound_of_value (k := .bool) (p := p) v)
  | compare op x y =>
      refine pair_runs (SymInt.term_runs hb (hr.int x))
        (fun c hle hc => SymInt.term_runs hc ((hr.mono hle).int y)) fun s t c _ hc hs ht => ?_
      refine (Build.intCompare_runs hc op hs.holdsAt ht.holdsAt).imp fun t' c' _ _ ht' => ht'.knows ?_ ?_
      · rw [hs.gives.2, ht.gives.2]
        exact (IntCompare.apply_eq_bits op _ _).symm
      · exact List.append_subset.mpr ⟨hs.free, ht.free⟩
  | not g =>
      refine Build.Runs.bind (SymBool.term_runs hb (hr.bool g)) fun q c _ hc hq => ?_
      refine (Build.boolNot_runs hc hq.held).imp fun q' c' _ _ hq' => hq'.knows ?_ hq.free
      exact congrArg (!·) hq.gives
  | join op g h =>
      refine pair_runs (SymBool.term_runs hb (hr.bool g))
        (fun c hle hc => SymBool.term_runs hc ((hr.mono hle).bool h)) fun s t c _ hc hs ht => ?_
      refine (Build.join_runs hc hs.held ht.held op).imp fun t' c' _ _ ht' => ht'.knows ?_ ?_
      · exact congrArg₂ op.apply hs.gives ht.gives
      · exact List.append_subset.mpr ⟨hs.free, ht.free⟩

/-- Performing an operation keeps agreement. -/
theorem run_runs (hb : b.Consistent) (hr : r.Sound b ρ names p) (o : Operation k) :
    Build.Runs (o.run r) b fun x c => x.Sound c ρ names p := by
  rw [run_eq_derive]
  exact Tracked.derive_runs hb (fun _ h => path_eq hr.onPath o h) (term_runs hb hr o)

/-! ### Two runs -/

theorem path_congr (h : r.Alike s) (o : Operation k) : o.path r = o.path s := by
  cases o with
  | const v => rfl
  | unary op x => exact (h.int x).path_eq
  | binary op x y => exact congrArg₂ Option.or (h.int x).path_eq (h.int y).path_eq
  | ite g x y =>
      exact congrArg₂ Option.or (congrArg₂ Option.or (h.int x).path_eq (h.int y).path_eq) (h.bool g).path_eq
  | ofBool g => exact (h.bool g).path_eq
  | truth v => rfl
  | compare op x y => exact congrArg₂ Option.or (h.int x).path_eq (h.int y).path_eq
  | not g => exact (h.bool g).path_eq
  | join op g g' => exact congrArg₂ Option.or (h.bool g).path_eq (h.bool g').path_eq

theorem term_congr (h : r.Alike s) (o : Operation k) : o.term r = o.term s := by
  cases o with
  | const v => rfl
  | unary op x => rw [term, term, SymInt.term_congr (h.int x)]
  | binary op x y => rw [term, term, SymInt.term_congr (h.int x), SymInt.term_congr (h.int y)]
  | ite g x y =>
      rw [term, term, SymBool.term_congr (h.bool g), SymInt.term_congr (h.int x), SymInt.term_congr (h.int y)]
  | ofBool g => rw [term, term, SymBool.term_congr (h.bool g)]
  | truth v => rfl
  | compare op x y => rw [term, term, SymInt.term_congr (h.int x), SymInt.term_congr (h.int y)]
  | not g => rw [term, term, SymBool.term_congr (h.bool g)]
  | join op g g' => rw [term, term, SymBool.term_congr (h.bool g), SymBool.term_congr (h.bool g')]

theorem value_congr (h : r.Alike s) (o : Operation k) (hpath : o.path r = none) : o.value r = o.value s := by
  cases o with
  | const v => rfl
  | unary op x => rw [value, value, (h.int x).value_eq hpath]
  | binary op x y =>
      obtain ⟨hx, hy⟩ := Option.or_eq_none_iff.mp hpath
      rw [value, value, (h.int x).value_eq hx, (h.int y).value_eq hy]
  | ite g x y =>
      obtain ⟨hxy, hg⟩ := Option.or_eq_none_iff.mp hpath
      obtain ⟨hx, hy⟩ := Option.or_eq_none_iff.mp hxy
      rw [value, value, (h.int x).value_eq hx, (h.int y).value_eq hy, (h.bool g).value_eq hg]
  | ofBool g => rw [value, value, (h.bool g).value_eq hpath]
  | truth v => rfl
  | compare op x y =>
      obtain ⟨hx, hy⟩ := Option.or_eq_none_iff.mp hpath
      rw [value, value, (h.int x).value_eq hx, (h.int y).value_eq hy]
  | not g => rw [value, value, (h.bool g).value_eq hpath]
  | join op g g' =>
      obtain ⟨hg, hg'⟩ := Option.or_eq_none_iff.mp hpath
      rw [value, value, (h.bool g).value_eq hg, (h.bool g').value_eq hg']

/-- An operation performed again in a later builder, on values with the same terms: the result has the
same term, and nothing new is built. -/
theorem run_again (hb : b.Consistent) (hr : r.Sound b ρ names p) (hc : c.Consistent)
    (hs : s.Sound c σ names p) (h : r.Alike s) (o : Operation k) (hle : (o.run r b).2 ≤ c) :
    (o.run r b).1.Alike (o.run s c).1 ∧ (o.run s c).2.SameTable c := by
  have hterm := (term_runs hc hs o).post.gives
  rw [← term_congr h o] at hterm
  rw [run_eq_derive] at hle
  rw [run_eq_derive, run_eq_derive, ← path_congr h o, ← term_congr h o]
  exact Tracked.derive_again (term_runs hb hr o) hc hle hterm (value_congr h o)

end Operation
end Pathwise
