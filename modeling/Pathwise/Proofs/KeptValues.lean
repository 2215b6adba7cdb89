import Pathwise.Proofs.Routine

/-! Values kept between runs. What a target keeps from an earlier run is a value over a held term, about which
nothing else is known: its term need not have its value under the inputs of the run that uses it, and its path may
be any. A run that starts with such values marks them, and marks every symbolic result that a marked value went
into. Operations keep all values over held terms, and keep the unmarked ones in agreement with their terms. -/

namespace Pathwise

open Builder

variable {ρ : Valuation} {names : List (String × Nat)} {p : Nat} {b c : Builder} {k : Ty}

/-! ### Values over held terms -/

/-- Words have the width of tracked integers. -/
def Term.Sized : {k : Ty} → Term k → Prop
  | .word, t => t.width = intWidth
  | .bool, _ => True

/-- The native value of a term under a valuation. -/
def Term.native (ρ : Valuation) : {k : Ty} → Term k → k.Value
  | .word, t => Int64.ofBitVec (t.bits ρ intWidth)
  | .bool, q => q.holds ρ

theorem Term.gives_native {t : Term k} (ht : t.Sized) : t.Gives ρ (t.native ρ) := by
  cases k with
  | word => exact ⟨ht, (Int64.toBitVec_ofBitVec _).symm⟩
  | bool => rfl

theorem Term.Gives.sized {t : Term k} {v : k.Value} (h : t.Gives ρ v) : t.Sized := by
  cases k with
  | word => exact h.1
  | bool => trivial

namespace Tracked

/-- The term of the value, if there is one, is held and no constant. Nothing is said about the value itself. -/
def Held (b : Builder) (x : Tracked k.Value k) : Prop :=
  ∀ o, x.origin = some o → o.term.isConst = false ∧ b.Holds o.term ∧ o.term.Sized

theorem Held.mono (h : b ≤ c) {x : Tracked k.Value k} (hx : x.Held b) : x.Held c := by
  intro o ho
  obtain ⟨hconst, hheld, hsized⟩ := hx o ho
  exact ⟨hconst, hheld.mono h, hsized⟩

theorem Sound.held {x : Tracked k.Value k} (hx : x.Sound b ρ names p) : x.Held b := by
  intro o ho
  obtain ⟨-, hconst, hknows⟩ := hx o ho
  exact ⟨hconst, hknows.held, hknows.gives.sized⟩

/-- The symbolic value moved to a path and given the value that its term has under a valuation. -/
def aligned (ρ : Valuation) (p : Nat) (x : Tracked k.Value k) : Tracked k.Value k :=
  match x.origin with
  | none => x
  | some o => { value := o.term.native ρ, origin := some ⟨o.term, p⟩ }

/-- The symbols of the value's term. -/
def symbols (x : Tracked k.Value k) : List (String × Nat) := x.origin.elim [] fun o => o.term.free

theorem Held.sound_aligned {x : Tracked k.Value k} (hx : x.Held b) (hnames : x.symbols ⊆ names) :
    (x.aligned ρ p).Sound b ρ names p := by
  intro o ho
  unfold aligned at ho ⊢
  cases hx' : x.origin with
  | none =>
      rw [hx'] at ho
      cases hx'.symm.trans ho
  | some o' =>
      simp only [hx'] at ho ⊢
      cases ho
      obtain ⟨hconst, hheld, hsized⟩ := hx o' hx'
      refine ⟨rfl, hconst, hheld, Term.gives_native hsized, ?_⟩
      rwa [symbols, hx'] at hnames

end Tracked

theorem SymInt.term_aligned (x : SymInt) : SymInt.term (Tracked.aligned (k := .word) ρ p x) = x.term := by
  unfold Tracked.aligned SymInt.term
  cases hx : x.origin <;> simp [hx]

theorem SymBool.term_aligned (x : SymBool) : SymBool.term (Tracked.aligned (k := .bool) ρ p x) = x.term := by
  unfold Tracked.aligned SymBool.term
  cases hx : x.origin <;> simp [hx]

namespace Registers

variable {r : Registers}

/-- Every value at hand is over a held term. -/
def Held (b : Builder) : Registers → Prop := Forall fun _ x => x.Held b

theorem Held.mono (h : b ≤ c) (hr : r.Held b) : r.Held c := fun k x hx => (hr k x hx).mono h

theorem Held.int (hr : r.Held b) (i : Nat) : Tracked.Held (k := .word) b (r.int i) :=
  Forall.int hr (by rintro _ ⟨⟩) i

theorem Held.bool (hr : r.Held b) (i : Nat) : Tracked.Held (k := .bool) b (r.bool i) :=
  Forall.bool hr (by rintro _ ⟨⟩) i

/-- All values moved to a path and given the values that their terms have under a valuation. -/
def aligned (ρ : Valuation) (p : Nat) (r : Registers) : Registers :=
  ⟨r.ints.map (Tracked.aligned (k := .word) ρ p), r.bools.map (Tracked.aligned (k := .bool) ρ p)⟩

theorem int_aligned (i : Nat) : (r.aligned ρ p).int i = Tracked.aligned (k := .word) ρ p (r.int i) := by
  unfold Registers.int aligned
  rw [List.getElem?_map]
  cases r.ints[i]? <;> rfl

theorem bool_aligned (i : Nat) : (r.aligned ρ p).bool i = Tracked.aligned (k := .bool) ρ p (r.bool i) := by
  unfold Registers.bool aligned
  rw [List.getElem?_map]
  cases r.bools[i]? <;> rfl

/-- The symbols of all values at hand. -/
def symbols (r : Registers) : List (String × Nat) :=
  r.ints.flatMap (Tracked.symbols (k := .word)) ++ r.bools.flatMap (Tracked.symbols (k := .bool))

theorem Held.sound_aligned (hr : r.Held b) : (r.aligned ρ p).Sound b ρ r.symbols p := by
  intro k x hx
  cases k with
  | word =>
      obtain ⟨y, hy, rfl⟩ := List.mem_map.mp hx
      refine (hr .word y hy).sound_aligned fun s hs => List.mem_append_left _ (List.mem_flatMap.mpr ⟨y, hy, hs⟩)
  | bool =>
      obtain ⟨y, hy, rfl⟩ := List.mem_map.mp hx
      refine (hr .bool y hy).sound_aligned fun s hs => List.mem_append_right _ (List.mem_flatMap.mpr ⟨y, hy, hs⟩)

end Registers

namespace Operation

variable {r : Registers}

/-- What is built depends on the terms at hand only, not on paths or values. -/
theorem term_aligned (ρ : Valuation) (p : Nat) (o : Operation k) : o.term (r.aligned ρ p) = o.term r := by
  cases o <;>
    simp only [term, Registers.int_aligned, Registers.bool_aligned, SymInt.term_aligned, SymBool.term_aligned]

theorem term_held (hb : b.Consistent) (hr : r.Held b) (o : Operation k) :
    Build.Runs (o.term r) b fun t c => c.Holds t ∧ t.Sized := by
  rw [← term_aligned (fun _ _ => 0) 0]
  exact (term_runs hb hr.sound_aligned o).imp fun t c _ _ ht => ⟨ht.held, ht.gives.sized⟩

/-- An operation on values over held terms gives one again. -/
theorem run_held (hb : b.Consistent) (hr : r.Held b) (o : Operation k) :
    Build.Runs (o.run r) b fun x c => x.Held c := by
  rw [run_eq_derive]
  cases o.path r with
  | none => exact Build.Runs.pure hb nofun
  | some q =>
      refine Build.Runs.bind (term_held hb hr o) fun t c _ hc ht => Build.Runs.pure hc fun o' ho' => ?_
      unfold Tracked.ofTerm at ho'
      split_ifs at ho' with hconst
      cases ho'
      exact ⟨Bool.not_eq_true _ ▸ hconst, ht⟩

/-- The numbers of the operands. -/
def operands : {k : Ty} → Operation k → List (Ty × Nat)
  | _, .const _ | _, .truth _ => []
  | _, .unary _ x => [(.word, x)]
  | _, .binary _ x y | _, .compare _ x y => [(.word, x), (.word, y)]
  | _, .ite g x y => [(.bool, g), (.word, x), (.word, y)]
  | _, .ofBool g | _, .not g => [(.bool, g)]
  | _, .join _ g h => [(.bool, g), (.bool, h)]

theorem run_congr {s : Registers} (o : Operation k) (hints : ∀ i, (Ty.word, i) ∈ o.operands → r.int i = s.int i)
    (hbools : ∀ i, (Ty.bool, i) ∈ o.operands → r.bool i = s.bool i) : o.run r = o.run s := by
  cases o <;> simp_all [operands, run]

end Operation

/-! ### Marks -/

/-- For every value at hand, whether a symbolic value of an earlier run went into it. -/
structure Marks where
  ints : List Bool := []
  bools : List Bool := []

namespace Marks

def values (s : Marks) : Ty → List Bool
  | .word => s.ints
  | .bool => s.bools

/-- A value that was never computed is unmarked. -/
def stale (s : Marks) (k : Ty) (i : Nat) : Bool := (s.values k)[i]?.getD false

def push (s : Marks) : Ty → Bool → Marks
  | .word, v => { s with ints := s.ints ++ [v] }
  | .bool, v => { s with bools := s.bools ++ [v] }

end Marks

/-- Kept values are marked if they are symbolic. -/
def Registers.marks (r : Registers) : Marks := ⟨r.ints.map (·.isSymbolic), r.bools.map (·.isSymbolic)⟩

/-- A marked operand went into the result. -/
def Operation.stale (s : Marks) (o : Operation k) : Bool := o.operands.any fun a => s.stale a.1 a.2

/-- The value is over a held term and, if it is unmarked, agrees with it. -/
def Tracked.Marked (b : Builder) (ρ : Valuation) (names : List (String × Nat)) (p : Nat) (x : Tracked k.Value k)
    (v : Bool) : Prop :=
  x.Held b ∧ (v = false → x.Sound b ρ names p)

/-- Every value at hand goes with its mark. -/
def Registers.Marked (b : Builder) (ρ : Valuation) (names : List (String × Nat)) (p : Nat) (r : Registers)
    (s : Marks) : Prop :=
  ∀ k, List.Forall₂ (Tracked.Marked b ρ names p) (r.values k) (s.values k)

section

variable {xs : List (Tracked k.Value k)} {vs : List Bool}

/-- The values with a concrete one in place of every marked one. -/
def unmarked (d : Tracked k.Value k) (xs : List (Tracked k.Value k)) (vs : List Bool) : List (Tracked k.Value k) :=
  List.zipWith (fun x v => if v then d else x) xs vs

theorem held_of_marked (h : List.Forall₂ (Tracked.Marked b ρ names p) xs vs) : ∀ x ∈ xs, x.Held b := by
  induction h with
  | nil => exact List.forall_mem_nil _
  | cons hx _ ih => exact List.forall_mem_cons.mpr ⟨hx.1, ih⟩

theorem sound_unmarked (h : List.Forall₂ (Tracked.Marked b ρ names p) xs vs) (v : k.Value) :
    ∀ x ∈ unmarked { value := v } xs vs, x.Sound b ρ names p := by
  induction h with
  | nil => exact List.forall_mem_nil _
  | @cons x stale _ _ hx _ ih =>
      refine List.forall_mem_cons.mpr ⟨?_, ih⟩
      cases stale with
      | true => exact Tracked.sound_of_value v
      | false => exact hx.2 rfl

theorem getD_unmarked (h : List.Forall₂ (Tracked.Marked b ρ names p) xs vs) (d : Tracked k.Value k) {i : Nat}
    (hi : vs[i]?.getD false = false) : (unmarked d xs vs)[i]?.getD d = xs[i]?.getD d := by
  induction h generalizing i with
  | nil => rfl
  | @cons x stale _ _ _ _ ih =>
      cases i with
      | zero =>
          have hstale : stale = false := hi
          subst hstale
          rfl
      | succ i => exact ih hi

theorem marked_getD (h : List.Forall₂ (Tracked.Marked b ρ names p) xs vs) (v : k.Value) (i : Nat) :
    (xs[i]?.getD { value := v }).Marked b ρ names p (vs[i]?.getD false) := by
  induction h generalizing i with
  | nil => exact ⟨nofun, fun _ => Tracked.sound_of_value v⟩
  | cons hx _ ih =>
      cases i with
      | zero => exact hx
      | succ i => exact ih i

end

namespace Registers.Marked

variable {r : Registers} {s : Marks}

theorem mono (h : b ≤ c) (hr : r.Marked b ρ names p s) : r.Marked c ρ names p s := fun k =>
  (hr k).imp fun _ _ hx => ⟨hx.1.mono h, fun hv => (hx.2 hv).mono h⟩

theorem held (hr : r.Marked b ρ names p s) : r.Held b := fun k => held_of_marked (hr k)

theorem push (hr : r.Marked b ρ names p s) {x : Tracked k.Value k} {v : Bool} (hx : x.Marked b ρ names p v) :
    (r.push x).Marked b ρ names p (s.push k v) := by
  intro l
  cases k <;> cases l
  case word.bool => exact hr .bool
  case bool.word => exact hr .word
  all_goals exact List.rel_append (hr _) (.cons hx .nil)

theorem bool (hr : r.Marked b ρ names p s) (i : Nat) :
    Tracked.Marked (k := .bool) b ρ names p (r.bool i) (s.stale .bool i) :=
  marked_getD (hr .bool) false i

/-- Kept values are marked as they should be: a concrete one agrees with everything. -/
theorem of_held (hr : r.Held b) : r.Marked b ρ names p r.marks := by
  have hall : ∀ {k : Ty} {xs : List (Tracked k.Value k)}, (∀ x ∈ xs, x.Held b) →
      List.Forall₂ (Tracked.Marked b ρ names p) xs (xs.map (·.isSymbolic)) := by
    intro k xs hxs
    refine List.forall₂_map_right_iff.mpr (List.forall₂_same.mpr fun x hx => ⟨hxs x hx, fun hv o ho => ?_⟩)
    rw [Tracked.isSymbolic, ho] at hv
    cases hv
  intro k
  cases k with
  | word => exact hall (hr .word)
  | bool => exact hall (hr .bool)

/-- An operation without marked operands keeps agreement. -/
theorem run_sound (hb : b.Consistent) (hr : r.Marked b ρ names p s) (o : Operation k) (ho : o.stale s = false) :
    Build.Runs (o.run r) b fun x c => x.Sound c ρ names p := by
  have hnone : ∀ a ∈ o.operands, s.stale a.1 a.2 = false := by simpa [Operation.stale] using ho
  let r' : Registers := ⟨unmarked (k := .word) (SymInt.const 0) r.ints s.ints,
    unmarked (k := .bool) (SymBool.const false) r.bools s.bools⟩
  have hr' : r'.Sound b ρ names p := by
    intro l
    cases l with
    | word => exact sound_unmarked (hr .word) 0
    | bool => exact sound_unmarked (hr .bool) false
  have hsame : o.run r = o.run r' := o.run_congr
    (fun i hi => (getD_unmarked (hr .word) (SymInt.const 0) (hnone _ hi)).symm)
    (fun i hi => (getD_unmarked (hr .bool) (SymBool.const false) (hnone _ hi)).symm)
  rw [hsame]
  exact o.run_runs hb hr'

end Registers.Marked

/-- The result of an operation is marked if a marked operand went into it and it is symbolic. -/
theorem Operation.run_marked {r : Registers} {s : Marks} (hb : b.Consistent) (hr : r.Marked b ρ names p s)
    (o : Operation k) :
    Build.Runs (o.run r) b fun x c => x.Marked c ρ names p (o.stale s && x.isSymbolic) := by
  have hheld := o.run_held hb hr.held
  refine ⟨hheld.consistent, hheld.grows, ⟨hheld.post, fun hv => ?_⟩, hheld.again⟩
  rcases Bool.and_eq_false_iff.mp hv with ho | hsymbolic
  · exact (hr.run_sound hb o ho).post
  · intro o' ho'
    rw [Tracked.isSymbolic, ho'] at hsymbolic
    cases hsymbolic

end Pathwise
