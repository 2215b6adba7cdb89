import Pathwise.Proofs.MachineInts
import Pathwise.Proofs.ScriptOutcomes

/-! Variants that mean the same. The outcome of a call of a local script depends on the values of the inputs alone, be
they symbolic or fixed (`Target.Invoked.answers`), so two scripts agree on all inputs if they agree on values. What
remains are identities of machine integers: the sign mask of an integer is all ones or zero, and a mask selects. A
triangle is judged by its sides in any order, since each of its tests can be read off the sides as a multiset. -/

namespace Pathwise

/-! ### What statements return -/

namespace Script

variable {args : Args} {locals : Locals} {c : BoolExpr} {x : IntExpr} {rest : List Stmt} {u v : Int64}

theorem evalBlock_ret (hx : evalInt args locals x = .ok v) :
    evalBlock args locals (.ret x :: rest) = .ok (locals, some v) := by
  rw [evalBlock, evalStmt, hx]
  rfl

theorem evalBlock_set {name : String} (hx : evalInt args locals x = .ok v) :
    evalBlock args locals (.set name x :: rest) = evalBlock args (setValue name (.const v) locals) rest := by
  rw [evalBlock, evalStmt, hx]
  rfl

/-- A guard clause: what follows runs unless the condition holds. -/
theorem evalBlock_guard {g : Bool} (hc : evalBool args locals c = .ok g) (hx : evalInt args locals x = .ok v) :
    evalBlock args locals (.branch c [.ret x] [] :: rest) =
      if g then .ok (locals, some v) else evalBlock args locals rest := by
  rw [evalBlock, evalStmt, hc]
  cases g with
  | true =>
      change evalBlock args locals [.ret x] >>= _ = _
      rw [evalBlock_ret hx]
      rfl
  | false =>
      change evalBlock args locals [] >>= _ = _
      rw [evalBlock]
      rfl

/-- The statements return the value. -/
def Returns (args : Args) (locals : Locals) (ss : List Stmt) (v : Int64) : Prop :=
  ∃ us, evalBlock args locals ss = .ok (us, some v)

namespace Returns

theorem ret (hx : evalInt args locals x = .ok v) : Returns args locals (.ret x :: rest) v :=
  ⟨locals, evalBlock_ret hx⟩

theorem guard {P : Prop} [Decidable P] {g : Bool} (hc : evalBool args locals c = .ok g) (hg : g = true ↔ P)
    (hx : evalInt args locals x = .ok u) (hrest : Returns args locals rest v) :
    Returns args locals (.branch c [.ret x] [] :: rest) (if P then u else v) := by
  obtain ⟨us, hrest⟩ := hrest
  unfold Returns
  rw [evalBlock_guard hc hx]
  simp only [hg]
  split_ifs
  · exact ⟨locals, rfl⟩
  · exact ⟨us, hrest⟩

theorem eval {s : Script} (h : Returns args [] s v) : s.eval args = .ok v := by
  obtain ⟨us, h⟩ := h
  rw [Script.eval, h]
  rfl

end Returns
end Script

/-! ### Calls on values -/

/-- The arguments that have these values. -/
def Args.ofValues (params : List String) (f : String → Int64) : Args := params.map fun name => (name, .const (f name))

/-- The inputs give the parameters these values. Each of them may be symbolic or fixed. -/
def InputMap.Gives (m : InputMap) (params : List String) (f : String → Int64) : Prop :=
  ∀ name ∈ params, (m.find? name).map (·.value) = some (f name)

instance (m : InputMap) (params : List String) (f : String → Int64) : Decidable (m.Gives params f) :=
  inferInstanceAs (Decidable (∀ name ∈ params, (m.find? name).map (·.value) = some (f name)))

variable {m m' : InputMap} {params : List String} {f : String → Int64}

theorem InputMap.Gives.natives (h : m.Gives params f) (args : Args) :
    m.natives params args = .ok (args ++ Args.ofValues params f) := by
  induction params generalizing args with
  | nil => rw [InputMap.natives, Args.ofValues, List.map_nil, List.append_nil]
  | cons name params ih =>
      obtain ⟨hname, hrest⟩ := List.forall_mem_cons.mp h
      obtain ⟨i, hi, hvalue⟩ := Option.map_eq_some_iff.mp hname
      rw [InputMap.natives, hi]
      dsimp only
      rw [ih hrest, hvalue, List.append_assoc]
      rfl

/-- Wherever it can be called, the target returns the number. -/
def Invocation.Answers (inv : Invocation) (m : InputMap) (v : Int64) : Prop :=
  inv.Yields (·.Ready inv.path) m (toString v.toInt)

/-- The invocation is one of the target, bound to some builder and a path of its own. -/
def Target.Invoked (t : Target) (inv : Invocation) : Prop := ∃ home w w', t.invoke (some home) w = .ok (inv, w')

/-- What a local script returns on values, its target returns on inputs that give these. -/
theorem Target.Invoked.answers {name : String} {s : Script} {inv : Invocation} {v : Int64}
    (hinv : Target.Invoked ⟨name, params, some s.run⟩ inv) (hs : Script.isLocal s = true) (hm : m.Gives params f)
    (h : s.eval (Args.ofValues params f) = .ok v) : inv.Answers m v := by
  obtain ⟨home, w₀, w₁, hinv⟩ := hinv
  obtain ⟨body, hbody, rfl, -⟩ := Target.invoke_eq_ok hinv
  cases hbody
  intro w hw
  rw [(Invocation.call_script rfl hs hw m).1, Script.native, hm.natives, List.nil_append]
  change (Invocation.resultOf name ((s.eval (Args.ofValues params f)).map SymInt.const) >>= _) = _
  rw [h]
  rfl

/-- Reference and variant return the same number on all inputs. -/
def Program.Matches (p : Program) (v : Variant) : Prop :=
  ∀ inv inv', p.referenceTarget.Invoked inv → (p.variantTarget v).Invoked inv' →
    ∀ f m m', m.Gives p.params f → m'.Gives p.params f → ∃ x, inv.Answers m x ∧ inv'.Answers m' x

theorem Program.matches_of_eval {p : Program} {v : Variant} (hs : Script.isLocal p.reference = true)
    (hs' : Script.isLocal v.script = true) {value : (String → Int64) → Int64}
    (h : ∀ f, p.reference.eval (Args.ofValues p.params f) = .ok (value f))
    (h' : ∀ f, v.script.eval (Args.ofValues p.params f) = .ok (value f)) : p.Matches v :=
  fun _ _ hinv hinv' f _ _ hm hm' => ⟨value f, hinv.answers hs hm (h f), hinv'.answers hs' hm' (h' f)⟩

/-! ### Masks -/

namespace Arith

/-- Shifting by all bits but one leaves the sign. -/
theorem ashr_sixtyThree (x : Int64) : ashr x 63 = if x < 0 then -1 else 0 := by
  have hshift : (ashr x 63).toInt = x.toInt / 2 ^ 63 := by
    change (ashr x 63).toBitVec.toInt = _
    rw [toBitVec_ashr, BitVec.toInt_sshiftRight, Int.shiftRight_eq_div_pow]
    rfl
  have hlow := x.le_toInt
  have hhigh := x.toInt_lt
  apply Int64.toInt_inj.mp
  rw [hshift]
  split_ifs with h <;> rw [Int64.lt_iff_toInt_lt, Int64.toInt_zero] at h
  · change x.toInt / 2 ^ 63 = -1
    omega
  · change x.toInt / 2 ^ 63 = 0
    omega

theorem lshr_sixtyThree (x : Int64) : lshr x 63 = if x < 0 then 1 else 0 := by
  have hmsb := msb_toBitVec x
  rw [BitVec.msb_eq_decide, decide_eq_decide] at hmsb
  have hlt := x.toBitVec.isLt
  have hshift : (lshr x 63).toBitVec.toNat = x.toBitVec.toNat / 2 ^ 63 := by
    rw [toBitVec_lshr, BitVec.toNat_ushiftRight, Nat.shiftRight_eq_div_pow]
    rfl
  apply Int64.toBitVec_inj.mp
  apply BitVec.eq_of_toNat_eq
  rw [hshift]
  split_ifs with h <;> rw [← hmsb] at h
  · change x.toBitVec.toNat / 2 ^ 63 = 1
    omega
  · change x.toBitVec.toNat / 2 ^ 63 = 0
    omega

theorem neg_lt_zero {x : Int64} (h : 0 < x) : -x < 0 := by
  have hpos : 0 < x.toInt := Int64.lt_iff_toInt_lt.mp h
  have hhigh := x.toInt_lt
  rw [Int64.lt_iff_toInt_lt, Int64.toInt_neg, Int.bmod_eq_of_le (by omega) (by omega), Int64.toInt_zero]
  omega

end Arith

/-! ### Arithmetic -/

namespace Catalogue

open Script Args

theorem eval_abs (f : String → Int64) :
    eval absScript (ofValues ["x"] f) = .ok (if f "x" < 0 then -f "x" else f "x") :=
  (Returns.guard rfl decide_eq_true_iff rfl (.ret rfl)).eval

theorem eval_absBranchless (f : String → Int64) :
    eval absBranchless (ofValues ["x"] f) = .ok (if f "x" < 0 then -f "x" else f "x") := by
  change Except.ok ((f "x" ^^^ Arith.ashr (f "x") 63) - Arith.ashr (f "x") 63) = _
  rw [Arith.ashr_sixtyThree]
  split_ifs
  · rw [Int64.xor_neg_one, Int64.sub_neg, Int64.neg_eq_not_add]
  · rw [Int64.xor_zero, Int64.sub_zero]

theorem eval_max (f : String → Int64) :
    eval maxScript (ofValues ["a", "b"] f) = .ok (if f "b" ≤ f "a" then f "a" else f "b") :=
  (Returns.guard rfl decide_eq_true_iff rfl (.ret rfl)).eval

theorem eval_maxBranchless (f : String → Int64) :
    eval maxBranchless (ofValues ["a", "b"] f) = .ok (if f "b" ≤ f "a" then f "a" else f "b") := by
  change Except.ok (f "b" ^^^ ((f "a" ^^^ f "b") &&& -(if decide (f "b" ≤ f "a") = true then 1 else 0))) = _
  by_cases hle : f "b" ≤ f "a"
  · rw [if_pos hle, if_pos (decide_eq_true hle), Int64.and_neg_one, Int64.xor_comm (f "a"), ← Int64.xor_assoc,
      Int64.xor_self, Int64.zero_xor]
  · rw [if_neg hle, if_neg (mt of_decide_eq_true hle), Int64.neg_zero, Int64.and_zero, Int64.xor_zero]

theorem eval_maxStrict (f : String → Int64) :
    eval maxStrict (ofValues ["a", "b"] f) = .ok (if f "b" ≤ f "a" then f "a" else f "b") := by
  have heval : eval maxStrict (ofValues ["a", "b"] f) = .ok (if f "b" < f "a" then f "a" else f "b") :=
    (Returns.guard rfl decide_eq_true_iff rfl (.ret rfl)).eval
  rw [heval]
  by_cases hlt : f "b" < f "a"
  · rw [if_pos hlt, if_pos (Int64.le_of_lt hlt)]
  · -- the comparisons differ on equal integers only, where the answers are the same
    rw [if_neg hlt]
    split_ifs with hle
    · rw [Int64.le_antisymm hle (Int64.not_lt.mp hlt)]
    · rfl

theorem eval_sign (f : String → Int64) :
    eval signScript (ofValues ["x"] f) = .ok (if 0 < f "x" then 1 else if f "x" < 0 then -1 else 0) :=
  (Returns.guard rfl decide_eq_true_iff rfl (.guard rfl decide_eq_true_iff rfl (.ret rfl))).eval

theorem eval_signShift (f : String → Int64) :
    eval signShift (ofValues ["x"] f) = .ok (if 0 < f "x" then 1 else if f "x" < 0 then -1 else 0) := by
  change Except.ok (Arith.ashr (f "x") 63 ||| Arith.lshr (-f "x") 63) = _
  rw [Arith.ashr_sixtyThree, Arith.lshr_sixtyThree]
  generalize f "x" = x
  by_cases hpos : 0 < x
  · rw [if_neg (Int64.lt_asymm hpos), if_pos (Arith.neg_lt_zero hpos), if_pos hpos, Int64.zero_or]
  · rw [if_neg hpos]
    by_cases hneg : x < 0
    · rw [if_pos hneg, Int64.neg_one_or]
    · obtain rfl : x = 0 := Int64.le_antisymm (Int64.not_lt.mp hpos) (Int64.not_lt.mp hneg)
      decide

/-! ### Triangles -/

/-- The sum of the sides, with wrapping. -/
def perimeter (sides : List Int64) : Int64 := sides.foldr (· + ·) 0

/-- What the sides make up, whatever their order. -/
def kind (sides : List Int64) : Int64 :=
  if ∃ x ∈ sides, x ≤ 0 then 0
  else if ∃ x ∈ sides, perimeter sides - x ≤ x then 0
  else if sides.all fun x => sides.all fun y => x == y then 3
  else if ¬sides.Nodup then 2 else 1

theorem perimeter_perm {sides sides' : List Int64} (h : sides.Perm sides') :
    perimeter sides = perimeter sides' := by
  have : LeftCommutative (α := Int64) (β := Int64) (· + ·) := ⟨fun a b c => by
    rw [← Int64.add_assoc, Int64.add_comm a b, Int64.add_assoc]⟩
  exact h.foldr_eq 0

theorem kind_perm {sides sides' : List Int64} (h : sides.Perm sides') : kind sides = kind sides' := by
  simp only [kind, List.all_eq_true, beq_iff_eq, h.mem_iff, perimeter_perm h, h.nodup_iff]

/-- Without one of three sides, the perimeter is the sum of the others. -/
theorem perimeter_sub (a b c : Int64) :
    perimeter [a, b, c] - a = b + c ∧ perimeter [a, b, c] - b = a + c ∧ perimeter [a, b, c] - c = a + b := by
  refine ⟨?_, ?_, ?_⟩ <;> simp only [perimeter, List.foldr] <;> grind

theorem eval_triangle (f : String → Int64) :
    eval (classify true) (ofValues ["a", "b", "c"] f) = .ok (kind (["a", "b", "c"].map f)) := by
  obtain ⟨ha, hb, hc⟩ := perimeter_sub (f "a") (f "b") (f "c")
  refine (Returns.guard rfl ?_ rfl (.guard rfl ?_ rfl (.guard rfl ?_ rfl (.guard rfl ?_ rfl (.ret rfl))))).eval
  · change (decide (f "a" ≤ 0) || decide (f "b" ≤ 0) || decide (f "c" ≤ 0)) = true ↔ _
    simp [or_assoc]
  · change (decide (f "b" + f "c" ≤ f "a") || decide (f "a" + f "c" ≤ f "b") || decide (f "a" + f "b" ≤ f "c")) =
      true ↔ _
    simp [or_assoc, ha, hb, hc]
  · change (f "a" == f "b" && f "b" == f "c") = true ↔ _
    simp only [Bool.and_eq_true, beq_iff_eq, List.map, List.all_eq_true, List.forall_mem_cons]
    grind
  · change (f "a" == f "b" || f "b" == f "c" || f "a" == f "c") = true ↔ _
    simp only [Bool.or_eq_true, beq_iff_eq, List.map, List.nodup_cons, List.mem_cons]
    grind

theorem lookup_eq {name : String} {p : Program} (hlower : Text.lower name = p.name)
    (hfind : programs.find? (·.name == p.name) = some p) : lookup name = .ok p := by
  rw [lookup, hlower, hfind]

end Catalogue

/-! ### Variants -/

section Variants

open Catalogue Script Args

/-- The variants that are meant to be equivalent have the outcome of their reference on all inputs, symbolic or
fixed, and a triangle has the same outcome whatever the order of its sides. -/
theorem variants_equivalent :
    (∀ names ∈ [("abs", "branchless"), ("max", "branchless"), ("max", "strict"), ("sign", "shift")],
      ∃ p v, Catalogue.lookup names.1 = .ok p ∧ p.variant names.2 = .ok v ∧ p.Matches v) ∧
    ∃ p, Catalogue.lookup "triangle" = .ok p ∧ p.params.length = 3 ∧
      ∀ inv inv', p.referenceTarget.Invoked inv → p.referenceTarget.Invoked inv' →
        ∀ f f' m m', (p.params.map f).Perm (p.params.map f') → m.Gives p.params f → m'.Gives p.params f' →
          ∃ x, inv.Answers m x ∧ inv'.Answers m' x := by
  have hmax : Catalogue.lookup "max" = .ok Catalogue.max := lookup_eq (by decide +kernel) rfl
  constructor
  · refine List.forall_mem_cons.mpr ⟨?_, List.forall_mem_cons.mpr ⟨?_, List.forall_mem_cons.mpr ⟨?_,
      List.forall_mem_singleton.mpr ?_⟩⟩⟩
    · exact ⟨Catalogue.abs, _, lookup_eq (by decide +kernel) rfl, rfl,
        Program.matches_of_eval rfl rfl eval_abs eval_absBranchless⟩
    · exact ⟨Catalogue.max, _, hmax, rfl, Program.matches_of_eval rfl rfl eval_max eval_maxBranchless⟩
    · exact ⟨Catalogue.max, _, hmax, rfl, Program.matches_of_eval rfl rfl eval_max eval_maxStrict⟩
    · exact ⟨Catalogue.sign, _, lookup_eq (by decide +kernel) rfl, rfl,
        Program.matches_of_eval rfl rfl eval_sign eval_signShift⟩
  · refine ⟨triangle, lookup_eq (by decide +kernel) rfl, rfl, fun inv inv' hinv hinv' f f' m m' hperm hm hm' => ?_⟩
    have heval' : eval (classify true) (ofValues triangle.params f') = .ok (kind (triangle.params.map f)) := by
      rw [kind_perm hperm]
      exact eval_triangle f'
    exact ⟨_, hinv.answers rfl hm (eval_triangle f), hinv'.answers rfl hm' heval'⟩

end Variants

/-- The least integer as a symbolic and as a fixed input, and three sides turned round, two of them symbolic. -/
theorem variants_equivalent_at_least_integer :
    let inv : Invocation := ⟨"abs", ["x"], Catalogue.absScript.run, 0, 0⟩
    let inv' : Invocation := ⟨"abs/branchless", ["x"], Catalogue.absBranchless.run, 1, 0⟩
    let tri : Invocation := ⟨"triangle", ["a", "b", "c"], (Catalogue.classify true).run, 0, 0⟩
    let w : World := { paths := #[{}, {}] }
    let m : InputMap := ⟨[⟨"x", Int64.minValue, true⟩]⟩
    let m' : InputMap := ⟨[⟨"x", Int64.minValue, false⟩]⟩
    let sides : InputMap := ⟨[⟨"a", 3, true⟩, ⟨"b", 4, false⟩, ⟨"c", 4, true⟩]⟩
    let sides' : InputMap := ⟨[⟨"c", 3, false⟩, ⟨"a", 4, true⟩, ⟨"b", 4, true⟩]⟩
    w.Ready inv.path ∧ w.Ready inv'.path ∧
      (inv.call m w).1.map (·.1.outcome) = .ok "-9223372036854775808" ∧
      (inv'.call m' w).1.map (·.1.outcome) = .ok "-9223372036854775808" ∧
      (tri.call sides w).1.map (·.1.outcome) = .ok "2" ∧ (tri.call sides' w).1.map (·.1.outcome) = .ok "2" := by
  intro inv inv' tri w m m' sides sides'
  have hready : w.Ready 0 ∧ w.Ready 1 := ⟨⟨by decide, rfl⟩, by decide, rfl⟩
  have hcall : (inv.call m w).1.map (·.1.outcome) = .ok "-9223372036854775808" := by decide +kernel
  have htri : (tri.call sides w).1.map (·.1.outcome) = .ok "2" := by decide +kernel
  obtain ⟨p, v, hp, hv, habs⟩ := variants_equivalent.1 ("abs", "branchless") (by decide)
  obtain rfl : Catalogue.abs = p := Except.ok.inj ((Catalogue.lookup_eq (by decide +kernel) rfl).symm.trans hp)
  cases hv
  obtain ⟨x, hx, hx'⟩ := habs inv inv' ⟨0, {}, _, rfl⟩ ⟨0, { paths := #[{}] }, _, rfl⟩ (fun _ => Int64.minValue) m m'
    (by decide) (by decide)
  obtain ⟨p, hp, -, hperm⟩ := variants_equivalent.2
  obtain rfl : Catalogue.triangle = p := Except.ok.inj ((Catalogue.lookup_eq (by decide +kernel) rfl).symm.trans hp)
  obtain ⟨y, hy, hy'⟩ := hperm tri tri ⟨0, {}, _, rfl⟩ ⟨0, {}, _, rfl⟩ (fun name => if name = "a" then 3 else 4)
    (fun name => if name = "c" then 3 else 4) sides sides' (by decide) (by decide) (by decide)
  exact ⟨hready.1, hready.2, hcall, (hx' w hready.2).trans ((hx w hready.1).symm.trans hcall), htri,
    (hy' w hready.1).trans ((hy w hready.1).symm.trans htri)⟩

end Pathwise
