import Pathwise.Proofs.EquivalentVariants

/-! Bounded Euclid. Every round of the loop replaces the pair by its second number and the remainder, until the second
number is zero (`Euclid.search`). A round keeps the greatest common divisor, so a run that leaves the loop by the branch
on zero returns this number up to its sign, and what it returns does not depend on the bound. The second number gets
smaller in every round: some bound suffices for each pair. -/

namespace Pathwise

/-! ### Variables -/

theorem lookupValue_setValue_self (name : String) (x : SymInt) (vs : List (String × SymInt)) :
    lookupValue name (setValue name x vs) = some x := by
  induction vs with
  | nil => simp [setValue, lookupValue]
  | cons v vs ih =>
      rw [setValue]
      split_ifs with h
      · simp [lookupValue, h]
      · rw [← ih]
        simp [lookupValue, h]

theorem lookupValue_setValue_of_ne {name name' : String} (h : name ≠ name') (x : SymInt)
    (vs : List (String × SymInt)) : lookupValue name (setValue name' x vs) = lookupValue name vs := by
  induction vs with
  | nil => simp [setValue, lookupValue, h.symm]
  | cons v vs ih =>
      obtain ⟨n, y⟩ := v
      rw [setValue]
      split_ifs with hv
      · simp [lookupValue, hv, h.symm]
      · unfold lookupValue at ih ⊢
        by_cases hn : n = name
        · simp [hn]
        · simpa [hn] using ih

theorem Script.Returns.append {args : Args} {locals : Locals} {ss : List Stmt} {v : Int64}
    (h : Returns args locals ss v) (rest : List Stmt) : Returns args locals (ss ++ rest) v := by
  induction ss generalizing locals with
  | nil =>
      obtain ⟨us, h⟩ := h
      rw [evalBlock] at h
      cases h
  | cons s ss ih =>
      obtain ⟨us, h⟩ := h
      unfold Returns
      rw [List.cons_append, evalBlock]
      rw [evalBlock] at h
      rcases hstmt : evalStmt args locals s with e | ⟨us', x | x⟩
      · rw [hstmt] at h
        cases h
      · rw [hstmt] at h
        exact ih ⟨us, h⟩
      · rw [hstmt] at h
        exact ⟨us, h⟩

/-! ### Pairs -/

namespace Euclid

/-- What the loop returns on a pair, if the second number becomes zero within the rounds. -/
def search : Nat → Int64 → Int64 → Option Int64
  | 0, _, _ => none
  | n + 1, a, b => if b = 0 then some a else search n b (Arith.rem a b)

variable {n n' : Nat} {a b v v' : Int64}

theorem natAbs_rem (a b : Int64) : (Arith.rem a b).toInt.natAbs = a.toInt.natAbs % b.toInt.natAbs := by
  change (Arith.rem a b).toBitVec.toInt.natAbs = _
  rw [Arith.toBitVec_rem, BitVec.toInt_srem]
  exact Int.natAbs_tmod _ _

/-- A round keeps the greatest common divisor. -/
theorem gcd_rem (a b : Int64) : Int.gcd b.toInt (Arith.rem a b).toInt = Int.gcd a.toInt b.toInt := by
  rw [Int.gcd_def, natAbs_rem, Nat.gcd_comm, ← Nat.gcd_rec, Nat.gcd_comm]
  rfl

theorem natAbs_rem_lt (a : Int64) (hb : b ≠ 0) : (Arith.rem a b).toInt.natAbs < b.toInt.natAbs := by
  have hpos : 0 < b.toInt.natAbs := by
    rw [Int.natAbs_pos]
    exact fun h => hb (Int64.toInt_inj.mp h)
  rw [natAbs_rem]
  exact Nat.mod_lt _ hpos

theorem natAbs_search (h : search n a b = some v) : v.toInt.natAbs = Int.gcd a.toInt b.toInt := by
  induction n generalizing a b with
  | zero => cases h
  | succ n ih =>
      rw [search] at h
      split_ifs at h with hb
      · cases h
        rw [hb, Int64.toInt_zero, Int.gcd_zero_right]
      · rw [ih h, gcd_rem]

/-- A larger bound does not change what is found. -/
theorem search_mono (h : search n a b = some v) (hle : n ≤ n') : search n' a b = some v := by
  induction n generalizing a b n' with
  | zero => cases h
  | succ n ih =>
      obtain ⟨k, rfl⟩ := Nat.exists_eq_add_of_le' hle
      rw [search] at h
      rw [← Nat.add_assoc, search]
      split_ifs at h ⊢ with hb
      · exact h
      · exact ih h (Nat.le_add_left n k)

theorem search_unique (h : search n a b = some v) (h' : search n' a b = some v') : v = v' := by
  rcases Nat.le_total n n' with hle | hle
  · exact Option.some.inj ((search_mono h hle).symm.trans h')
  · exact Option.some.inj (h.symm.trans (search_mono h' hle))

/-- As many rounds as the second number counts are enough, and one to see the zero. -/
theorem search_isSome (h : b.toInt.natAbs < n) : (search n a b).isSome = true := by
  induction n generalizing a b with
  | zero => cases h
  | succ n ih =>
      rw [search]
      split_ifs with hb
      · rfl
      · exact ih ((natAbs_rem_lt a hb).trans_le (Nat.le_of_lt_succ h))

/-! ### Rounds -/

/-- The variables hold the pair. -/
structure At (locals : Script.Locals) (a b : Int64) : Prop where
  first : lookupValue "a" locals = some (.const a)
  second : lookupValue "b" locals = some (.const b)

/-- One round of the loop. -/
def round : List Stmt := [
  .branch (.compare .eq (.var "b") (.lit 0)) [.ret (.var "a")] [],
  .set "t" (.binary .rem (.var "a") (.var "b")),
  .set "a" (.var "b"),
  .set "b" (.var "t")]

open Script

variable {args : Args} {locals : Locals}

theorem evalInt_var {name : String} {v : Int64} (h : lookupValue name locals = some (.const v)) :
    evalInt args locals (.var name) = .ok v := by
  rw [evalInt, h]
  rfl

/-- A round returns the first number once the second is zero, and goes on with the second and the remainder
otherwise. -/
theorem round_spec (args : Args) (h : At locals a b) :
    ∃ us, evalBlock args locals round = .ok (us, if b = 0 then some a else none) ∧
      (b ≠ 0 → At us b (Arith.rem a b)) := by
  have htest : evalBool args locals (.compare .eq (.var "b") (.lit 0)) = .ok (b == 0) := by
    rw [evalBool, evalInt_var h.second]
    rfl
  have hrem : evalInt args locals (.binary .rem (.var "a") (.var "b")) = .ok (Arith.rem a b) := by
    rw [evalInt, evalInt_var h.first, evalInt_var h.second]
    rfl
  have hb' : lookupValue "b" (setValue "t" (.const (Arith.rem a b)) locals) = some (.const b) := by
    rw [lookupValue_setValue_of_ne (by decide), h.second]
  have ht : lookupValue "t" (setValue "a" (.const b) (setValue "t" (.const (Arith.rem a b)) locals)) =
      some (.const (Arith.rem a b)) := by
    rw [lookupValue_setValue_of_ne (by decide), lookupValue_setValue_self]
  rw [round, evalBlock_guard htest (evalInt_var h.first)]
  by_cases hb : b = 0
  · rw [if_pos (beq_iff_eq.mpr hb), if_pos hb]
    exact ⟨locals, rfl, absurd hb⟩
  · rw [if_neg (mt beq_iff_eq.mp hb), if_neg hb, evalBlock_set hrem, evalBlock_set (evalInt_var hb'),
      evalBlock_set (evalInt_var ht), evalBlock]
    refine ⟨_, rfl, fun _ => ⟨?_, lookupValue_setValue_self _ _ _⟩⟩
    rw [lookupValue_setValue_of_ne (by decide), lookupValue_setValue_self]

/-- The rounds return what is found within their number. -/
theorem rounds_spec (n : Nat) : ∀ {locals : Locals} {a b : Int64}, At locals a b →
    ∃ us, evalRounds (fun locals => evalBool args locals (.lit true)) (fun locals => evalBlock args locals round) n
      locals = .ok (us, search n a b) := by
  induction n with
  | zero => exact fun _ => ⟨_, rfl⟩
  | succ n ih =>
      intro locals a b h
      obtain ⟨us, hround, hnext⟩ := round_spec args h
      rw [evalRounds]
      change ∃ us, (evalBlock args locals round >>= _) = _
      rw [hround, search]
      by_cases hb : b = 0
      · rw [if_pos hb, if_pos hb]
        exact ⟨us, rfl⟩
      · rw [if_neg hb, if_neg hb]
        exact ih (hnext hb)

theorem evalBlock_euclid (n : Nat) (f : String → Int64) :
    ∃ us, evalBlock (Args.ofValues ["a", "b"] f) [] (Catalogue.euclid n).dropLast =
      .ok (us, search n (f "a") (f "b")) := by
  have hloop : (Catalogue.euclid n).dropLast =
    [.set "a" (.param "a"), .set "b" (.param "b"), .loop (.lit true) n round] := rfl
  rw [hloop, evalBlock_set rfl, evalBlock_set rfl, evalBlock, evalStmt]
  have hstart : At [("a", .const (f "a")), ("b", .const (f "b"))] (f "a") (f "b") := ⟨rfl, rfl⟩
  obtain ⟨us, hrounds⟩ := rounds_spec n hstart
  refine ⟨us, ?_⟩
  change (evalRounds (fun locals => evalBool (Args.ofValues ["a", "b"] f) locals (.lit true))
    (fun locals => evalBlock (Args.ofValues ["a", "b"] f) locals round) n
    [("a", .const (f "a")), ("b", .const (f "b"))] >>= _) = _
  rw [hrounds]
  cases search n (f "a") (f "b") <;> rfl

/-- Once the search has found a number, the script returns it, inside the loop and as a whole. -/
theorem eval_euclid {n : Nat} {f : String → Int64} {v : Int64} (h : search n (f "a") (f "b") = some v) :
    Script.eval (Catalogue.euclid n) (Args.ofValues ["a", "b"] f) = .ok v := by
  obtain ⟨us, hloop⟩ := evalBlock_euclid n f
  rw [h] at hloop
  exact (Returns.append ⟨us, hloop⟩ [.ret (.var "a")]).eval

end Euclid

/-! ### Calls -/

/-- On the inputs, the run of the script returns before its last statement. -/
def Invocation.ReturnsEarly (inv : Invocation) (s : Script) (m : InputMap) (w : World) : Prop :=
  ∃ args w' path, bindArgs inv.path m inv.params [] w = (.ok args, w') ∧ (w'.path inv.path).begin? = some path ∧
    ∃ us z, (Script.block args [] s.dropLast (w'.setPath inv.path path)).1 = .ok (us, some z)

/-- A run returns a value just if the script does so on values. -/
theorem Script.returns_iff_of_alike {p : Nat} {args : Args} {ss : List Stmt} {out : Except Stop Step}
    (h : Stop.Alike (Step.Shows p) out (evalBlock args [] ss)) :
    (∃ v, Returns args [] ss v) ↔ ∃ us z, out = .ok (us, some z) := by
  unfold Returns
  generalize evalBlock args [] ss = val at h
  cases h with
  | error e => simp
  | @ok step v hshows =>
      obtain ⟨us, r⟩ := step
      obtain ⟨us', r'⟩ := v
      cases hshows.2 <;> simp

theorem Invocation.returnsEarly_iff {inv : Invocation} {s : Script} {m : InputMap} {w : World} {f : String → Int64}
    (hs : Script.isLocal s.dropLast = true) (hw : w.Ready inv.path) (hm : m.Gives inv.params f) :
    inv.ReturnsEarly s m w ↔ ∃ v, Script.Returns (Args.ofValues inv.params f) [] s.dropLast v := by
  have hnatives : (m.bindM inv.path inv.params [] w.builder).1.map Args.native = .ok (Args.ofValues inv.params f) :=
    (m.native_bindM inv.path inv.params [] w.builder).trans (hm.natives [])
  have hpath : ∀ args, (m.bindM inv.path inv.params [] w.builder).1 = .ok args → args.OnPath inv.path :=
    m.bindM_onPath inv.params (List.forall_mem_nil _) w.builder
  rcases hbind : m.bindM inv.path inv.params [] w.builder with ⟨e | args, b⟩
  · rw [hbind] at hnatives
    cases hnatives
  · rw [hbind] at hnatives hpath
    have hargs : args.Shows inv.path (Args.ofValues inv.params f) := ⟨Except.ok.inj hnatives, hpath args rfl⟩
    have hbegin : (({ w with builder := b } : World).path inv.path).begin? = some { active := true } := by
      change (w.path inv.path).begin? = _
      rw [hw.drained]
      rfl
    have hargs' : bindArgs inv.path m inv.params [] w = (.ok args, { w with builder := b }) := by
      rw [InputMap.bindArgs_eq, World.build, hbind]
    have hnone : Args.Shows inv.path [] [] := ⟨rfl, List.forall_mem_nil _⟩
    obtain ⟨halike, -⟩ := Script.block_computes hw.exists_path hargs s.dropLast hs hnone b []
    rw [Script.returns_iff_of_alike halike]
    constructor
    · rintro ⟨args', w', path, hbound, hbegun, hblock⟩
      rw [hargs'] at hbound
      cases hbound
      rw [hbegin] at hbegun
      cases hbegun
      exact hblock
    · exact fun hblock => ⟨args, _, _, hargs', hbegin, hblock⟩

theorem Euclid.returnsEarly_iff {name : String} {steps : Nat} {inv : Invocation} {m : InputMap} {w : World}
    {f : String → Int64} (hinv : Target.Invoked ⟨name, ["a", "b"], some (Catalogue.euclid steps).run⟩ inv)
    (hm : m.Gives ["a", "b"] f) (hw : w.Ready inv.path) :
    inv.ReturnsEarly (Catalogue.euclid steps) m w ↔ (search steps (f "a") (f "b")).isSome = true := by
  obtain ⟨home, w₀, w₁, hinv⟩ := hinv
  obtain ⟨body, hbody, rfl, -⟩ := Target.invoke_eq_ok hinv
  obtain ⟨us, hloop⟩ := evalBlock_euclid steps f
  rw [Invocation.returnsEarly_iff rfl hw hm]
  unfold Script.Returns
  rw [hloop]
  simp [Option.isSome_iff_exists]

/-- Bounded Euclid. For each pair there is one number, the greatest common divisor up to its sign, that is returned
under every bound under which the run leaves the loop by the branch on zero, and from some bound on it does. Hence the
variant with the smaller bound agrees with the reference wherever its run leaves the loop in this way. -/
theorem euclid_returns_gcd :
    (∀ f : String → Int64, ∃ v : Int64, v.toInt.natAbs = Int.gcd (f "a").toInt (f "b").toInt ∧
      ∀ name steps inv, Target.Invoked ⟨name, ["a", "b"], some (Catalogue.euclid steps).run⟩ inv →
        ∀ (m : InputMap) (w : World), m.Gives ["a", "b"] f → w.Ready inv.path →
          (inv.ReturnsEarly (Catalogue.euclid steps) m w →
            (inv.call m w).1.map (·.1.outcome) = .ok (toString v.toInt)) ∧
          ((f "b").toInt.natAbs < steps → inv.ReturnsEarly (Catalogue.euclid steps) m w)) ∧
    ∃ p short, Catalogue.lookup "gcd" = .ok p ∧ p.variant "short" = .ok short ∧
      ∀ inv inv', p.referenceTarget.Invoked inv → (p.variantTarget short).Invoked inv' →
        ∀ (f : String → Int64) (m m' : InputMap) (w w' : World), m.Gives p.params f → m'.Gives p.params f →
          w.Ready inv.path → w'.Ready inv'.path → inv'.ReturnsEarly short.script m' w' →
            ∃ v : Int64, v.toInt.natAbs = Int.gcd (f "a").toInt (f "b").toInt ∧
              (inv.call m w).1.map (·.1.outcome) = .ok (toString v.toInt) ∧
              (inv'.call m' w').1.map (·.1.outcome) = .ok (toString v.toInt) := by
  constructor
  · intro f
    obtain ⟨v, hv⟩ := Option.isSome_iff_exists.mp (Euclid.search_isSome (a := f "a") (Nat.lt_succ_self _))
    refine ⟨v, Euclid.natAbs_search hv, fun name steps inv hinv m w hm hw => ⟨fun hearly => ?_, fun hsteps => ?_⟩⟩
    · obtain ⟨v', hv'⟩ := Option.isSome_iff_exists.mp ((Euclid.returnsEarly_iff hinv hm hw).mp hearly)
      obtain rfl := Euclid.search_unique hv hv'
      exact hinv.answers rfl hm (Euclid.eval_euclid hv') w hw
    · exact (Euclid.returnsEarly_iff hinv hm hw).mpr (Euclid.search_isSome hsteps)
  · refine ⟨Catalogue.gcd, _, Catalogue.lookup_eq (by decide +kernel) rfl, rfl, ?_⟩
    intro inv inv' hinv hinv' f m m' w w' hm hm' hw hw' hearly
    obtain ⟨v, hv⟩ := Option.isSome_iff_exists.mp ((Euclid.returnsEarly_iff hinv' hm' hw').mp hearly)
    have hv' : Euclid.search Catalogue.gcdSteps (f "a") (f "b") = some v := Euclid.search_mono hv (by decide)
    exact ⟨v, Euclid.natAbs_search hv, hinv.answers rfl hm (Euclid.eval_euclid hv') w hw,
      hinv'.answers rfl hm' (Euclid.eval_euclid hv) w' hw'⟩

/-- A pair of opposite signs, symbolic in one call and in part fixed in the other; and the least integer. -/
theorem euclid_returns_gcd_at_opposite_signs :
    let inv : Invocation := ⟨"gcd", ["a", "b"], (Catalogue.euclid 8).run, 0, 0⟩
    let inv' : Invocation := ⟨"gcd/short", ["a", "b"], (Catalogue.euclid 4).run, 1, 0⟩
    let w : World := { paths := #[{}, {}] }
    let m : InputMap := ⟨[⟨"a", 12, true⟩, ⟨"b", -18, true⟩]⟩
    let m' : InputMap := ⟨[⟨"a", 12, false⟩, ⟨"b", -18, true⟩]⟩
    let least : InputMap := ⟨[⟨"a", Int64.minValue, true⟩, ⟨"b", -1, true⟩]⟩
    inv'.ReturnsEarly (Catalogue.euclid 4) m' w ∧ (inv.call m w).1.map (·.1.outcome) = .ok "-6" ∧
      (inv'.call m' w).1.map (·.1.outcome) = .ok "-6" ∧ inv'.ReturnsEarly (Catalogue.euclid 4) least w ∧
      ∃ v : Int64, v.toInt.natAbs = 1 ∧ (inv'.call least w).1.map (·.1.outcome) = .ok (toString v.toInt) := by
  intro inv inv' w m m' least
  have hready : w.Ready 0 ∧ w.Ready 1 := ⟨⟨by decide, rfl⟩, by decide, rfl⟩
  have hinv : Catalogue.gcd.referenceTarget.Invoked inv := ⟨0, {}, _, rfl⟩
  have hinv' : Target.Invoked ⟨"gcd/short", ["a", "b"], some (Catalogue.euclid 4).run⟩ inv' :=
    ⟨0, { paths := #[{}] }, _, rfl⟩
  let f : String → Int64 := fun name => if name = "a" then 12 else -18
  let g : String → Int64 := fun name => if name = "a" then Int64.minValue else -1
  have hm : m.Gives ["a", "b"] f := by decide
  have hm' : m'.Gives ["a", "b"] f := by decide
  have hleast : least.Gives ["a", "b"] g := by decide
  have hearly : inv'.ReturnsEarly (Catalogue.euclid 4) m' w :=
    (Euclid.returnsEarly_iff hinv' hm' hready.2).mpr (by decide)
  have hcall : (inv.call m w).1.map (·.1.outcome) = .ok "-6" := by decide +kernel
  obtain ⟨p, short, hp, hshort, hagree⟩ := euclid_returns_gcd.2
  obtain rfl : Catalogue.gcd = p := Except.ok.inj ((Catalogue.lookup_eq (by decide +kernel) rfl).symm.trans hp)
  cases hshort
  obtain ⟨v, -, hv, hv'⟩ := hagree inv inv' hinv hinv' f m m' w w hm hm' hready.1 hready.2 hearly
  obtain ⟨u, hu, hbounds⟩ := euclid_returns_gcd.1 g
  obtain ⟨hreturns, hsuffices⟩ := hbounds "gcd/short" 4 inv' hinv' least w hleast hready.2
  have hsteps := hsuffices (by decide)
  exact ⟨hearly, hcall, hv'.trans (hv.symm.trans hcall), hsteps, u, hu.trans (by decide), hreturns hsteps⟩

end Pathwise
