import Pathwise.Oracle
import Pathwise.Proofs.GridModels
import Pathwise.Proofs.Sessions
import Pathwise.Proofs.Slicing

/-! Counterexamples from sliced constraints. The solver decides the opposite of a query together with the
asserts that are related to it, and the model that it finds binds their symbols only. If the asserts can be
satisfied at all this is enough: whatever satisfies them goes on satisfying them under the model, which also
makes the query fail. So the check of the model against the whole formula never refuses it, and the model can be
applied to any inputs that satisfy the asserts. -/

namespace Pathwise

open Builder

variable {b c : Builder}

/-! ### Predicates -/

namespace Predicate

/-- The predicate has a held condition, and its negation. -/
structure Made (b : Builder) (d : Predicate) : Prop where
  held : b.Holds d.cond
  negation : b.MeansCond d.negation (fun ρ => !d.cond.holds ρ) d.cond.free

theorem Made.mono (h : b ≤ c) {d : Predicate} (hd : d.Made b) : d.Made c := ⟨hd.held.mono h, hd.negation.mono h⟩

theorem Made.flip {d : Predicate} (hd : d.Made b) : d.flip.Made b := ⟨hd.held, hd.negation⟩

theorem Made.expr {d : Predicate} (hd : d.Made b) :
    b.MeansCond d.expr (fun ρ => d.cond.holds ρ == d.taken) d.cond.free := by
  unfold Predicate.expr
  split_ifs with htaken
  · exact ⟨hd.held, fun ρ => by rw [htaken, beq_true], List.Subset.refl _⟩
  · rw [Bool.not_eq_true] at htaken
    exact hd.negation.congr (fun ρ => by rw [htaken, beq_false]) (List.Subset.refl _)

theorem Made.expr_holds_iff {d : Predicate} (hd : d.Made b) {ρ : Valuation} :
    d.expr.holds ρ = true ↔ d.HoldsFor ρ := by
  rw [hd.expr.holds, beq_iff_eq, HoldsFor]

/-- The predicates that are built from held conditions are such. -/
theorem make_made (hb : b.Consistent) {p : Cond} (hp : b.Holds p) (v : Bool) :
    Build.Runs (make p v) b fun d c => d.Made c ∧ d.cond = p ∧ d.taken = v := by
  refine Build.Runs.bind (Build.boolNot_runs hb hp) fun n c hle hc hn => Build.Runs.pure hc ?_
  exact ⟨⟨hp.mono hle, hn⟩, rfl, rfl⟩

end Predicate

/-! ### Questions -/

namespace Query

/-- The question is about terms of the builder. -/
def Made (b : Builder) : Query → Prop
  | .solve p => b.Holds p
  | .counterexample asserts query => ∀ d ∈ query :: asserts, d.Made b

/-- The valuation is one that the question asks for. -/
def HoldsFor (ρ : Valuation) : Query → Prop
  | .solve p => p.holds ρ = true
  | .counterexample asserts query => Trace.HoldsFor ρ asserts ∧ query.flip.HoldsFor ρ

/-- The conditions that are asked for together. -/
def conjuncts : Query → List Cond
  | .solve p => [p]
  | .counterexample asserts query => asserts.map Predicate.expr ++ [query.flip.expr]

variable {q : Query}

theorem Made.mono (hq : q.Made b) (h : b ≤ c) : q.Made c := by
  cases q with
  | solve p => exact Builder.Holds.mono h hq
  | counterexample asserts query => exact fun d hd => (hq d hd).mono h

theorem Made.held (hq : q.Made b) : ∀ p ∈ q.conjuncts, b.Holds p := by
  cases q with
  | solve p => exact List.forall_mem_singleton.mpr hq
  | counterexample asserts query =>
      obtain ⟨hquery, hasserts⟩ := List.forall_mem_cons.mp hq
      rw [conjuncts, List.forall_mem_append, List.forall_mem_map, List.forall_mem_singleton]
      exact ⟨fun d hd => (hasserts d hd).expr.held, hquery.flip.expr.held⟩

theorem Made.holdsFor_iff (hq : q.Made b) {ρ : Valuation} :
    q.HoldsFor ρ ↔ ∀ p ∈ q.conjuncts, p.holds ρ = true := by
  cases q with
  | solve p =>
      rw [conjuncts, List.forall_mem_singleton]
      rfl
  | counterexample asserts query =>
      obtain ⟨hquery, hasserts⟩ := List.forall_mem_cons.mp hq
      rw [conjuncts, List.forall_mem_append, List.forall_mem_map, List.forall_mem_singleton,
        hquery.flip.expr_holds_iff]
      exact and_congr_left' (forall₂_congr fun d hd => (hasserts d hd).expr_holds_iff.symm)

end Query

/-! ### Deciding a slice -/

namespace Solver

variable {σ : Type} {B : Backend σ} {s : Solver σ} {q : Cond}

/-- The condition together with the constraints related to it. -/
def sliced (s : Solver σ) (q : Cond) : Build Cond := do
  let slice ← s.slice q
  Build.join .and slice q

theorem check_eq (B : Backend σ) (s : Solver σ) (q : Cond) (b : Builder) :
    s.check B q b =
      let r := s.sliced q b
      let out := B.check r.1 s.backend r.2
      ((out.1.1, { s with backend := out.1.2 }), out.2) := rfl

theorem sliced_means (hb : b.Consistent) (hs : s.Indexed b) (hq : b.Holds q) :
    Build.Runs (s.sliced q) b fun r c =>
      c.MeansCond r (fun ρ => ((s.related q).all (·.holds ρ) && !s.refuted) && q.holds ρ) (s.cone q) := by
  refine Build.Runs.bind (slice_runs hb hs q) fun r c hle hc hr => ?_
  refine (Build.join_runs hc hr.held (hq.mono hle) .and).imp fun r' d _ _ hr' => hr'.congr (fun τ => ?_) ?_
  · rw [hr.holds]
    rfl
  · exact List.append_subset.mpr
      ⟨List.Subset.trans hr.free (List.subset_append_right _ _), List.subset_append_left _ _⟩

theorem sliced_runs (hb : b.Consistent) (hs : s.Indexed b) (hq : b.Holds q) (hsat : ∃ ρ, s.HoldsFor ρ) :
    Build.Runs (s.sliced q) b fun r c =>
      c.MeansCond r (fun ρ => (s.related q).all (·.holds ρ) && q.holds ρ) (s.cone q) := by
  obtain ⟨ρ, hρ⟩ := hsat
  refine (sliced_means hb hs hq).imp fun r c _ _ hr => hr.congr (fun τ => ?_) (List.Subset.refl _)
  rw [refuted_eq_false hρ, Bool.not_false, Bool.and_true]

/-- What an exact backend finds about a condition and constraints that can be satisfied: nothing that satisfies
the constraints satisfies the condition, or a model makes the condition true and satisfied constraints stay
satisfied under it. -/
structure Decided (B : Backend σ) (s : Solver σ) (q : Cond) (out : (SatResult × Solver σ) × Builder) : Prop where
  consistent : out.2.Consistent
  answer : (∃ m : Model, out.1.1 = .sat ∧ out.1.2.model B = some m ∧
      (∀ name c, m.find? name = some c → c.width = intWidth) ∧
      ∀ ρ, s.HoldsFor ρ → s.HoldsFor (ρ.override m) ∧ q.holds (ρ.override m) = true) ∨
    out.1.1 = .unsat ∧ ∀ ρ, s.HoldsFor ρ → q.holds ρ = false

theorem check_decided (hB : B.Exact s.backend) (hb : b.Consistent) (hs : s.Indexed b) (hq : b.Holds q)
    (hints : ∀ x ∈ s.cone q, x.2 = intWidth) (hsat : ∃ ρ, s.HoldsFor ρ) :
    b ≤ (s.check B q b).2 ∧ Decided B s q (s.check B q b) := by
  have hrun := sliced_runs hb hs hq hsat
  obtain ⟨hheld, hholds, hfree⟩ := hrun.post
  rw [check_eq]
  set r := (s.sliced q b).1
  obtain ⟨hconsistent, hgrows, hanswer⟩ :=
    hB _ r hrun.consistent hheld fun x hx => hints x (hfree hx)
  refine ⟨hrun.grows.trans hgrows, hconsistent, hanswer.imp ?_ ?_⟩
  · rintro ⟨m, hresult, hmodel, hbinds, hm⟩
    refine ⟨m, hresult, hmodel, fun name c hc => hints _ (hfree (hbinds.only name c hc)), fun ρ hρ => ?_⟩
    have hall := hm ρ
    rw [hholds, Bool.and_eq_true, List.all_eq_true] at hall
    refine ⟨hρ.change hb hs hq hall.1 (fun _ _ => rfl) fun x hx => ?_, hall.2⟩
    -- A word for a symbol outside the cone would have to be of another width.
    unfold Valuation.override
    cases hc : m.find? x.1 with
    | none => rfl
    | some c =>
        have hmem := hfree (hbinds.only x.1 c hc)
        have hwidth : c.width ≠ x.2 := by
          intro hwidth
          rw [hwidth] at hmem
          exact hx hmem
        dsimp only
        rw [if_neg hwidth]
  · rintro ⟨hresult, hm⟩
    refine ⟨hresult, fun ρ hρ => ?_⟩
    have hfalse := hm ρ
    rw [hholds, Bool.and_eq_false_iff] at hfalse
    refine hfalse.resolve_left fun hnot => ?_
    obtain ⟨d, hd, hfails⟩ := List.all_eq_false.mp hnot
    exact hfails (hρ d (mem_related.mp hd).1)

end Solver

/-! ### The oracle -/

namespace SolverOracle

variable {σ : Type} {B : Backend σ} {fresh : σ} {full : Cond} {m : Model}

/-- A model that fits the formula and can be completed to satisfy it is accepted. -/
theorem verify_of_holds (hb : b.Consistent) (hfull : b.Holds full) (hfits : m.Fits full.free) {ρ : Valuation}
    (hρ : full.holds (ρ.override m) = true) : (verify full m b).1 = .ok (some m) := by
  obtain ⟨-, -, ⟨u, hu, -, hmeans⟩ | ⟨e, -, hmisfit⟩⟩ := Build.eval_spec hb hfull m
  · have hnot : u.truth? ≠ some false := by
      intro hfalse
      have hholds := Term.holds_of_truth? hfalse ρ
      rw [MeansCond.holds hmeans ρ, hρ] at hholds
      cases hholds
    rw [verify, Build.bind_apply, hu]
    dsimp only
    rw [if_neg hnot]
    rfl
  · exact absurd hfits hmisfit.not_fits

/-- The answer of an exact backend is passed on, and its model is accepted. -/
theorem check_decided {s : Solver σ} {q : Cond} (hB : B.Exact s.backend) (hb : b.Consistent) (hs : s.Indexed b)
    (hq : b.Holds q) (hints : ∀ d ∈ s.constraints, ∀ x ∈ d.free, x.2 = intWidth)
    (hqints : ∀ x ∈ q.free, x.2 = intWidth) (hsat : ∃ ρ, s.HoldsFor ρ)
    (hfull : b.MeansCond full (fun ρ => s.constraints.all (·.holds ρ) && q.holds ρ)
      (Term.freeConds s.constraints ++ q.free)) :
    (∃ m : Model, (check B s q full b).1.1 = .ok (some m) ∧
      (∀ name c, m.find? name = some c → c.width = intWidth) ∧
      ∀ ρ, s.HoldsFor ρ → s.HoldsFor (ρ.override m) ∧ q.holds (ρ.override m) = true) ∨
    (check B s q full b).1.1 = .ok none ∧ ∀ ρ, s.HoldsFor ρ → q.holds ρ = false := by
  have hconstraint : ∀ x ∈ Term.freeConds s.constraints, x.2 = intWidth := by
    intro x hx
    obtain ⟨d, hd, hx⟩ := Term.mem_freeConds.mp hx
    exact hints d hd x hx
  have hcone : ∀ x ∈ s.cone q, x.2 = intWidth := by
    intro x hx
    rcases List.mem_append.mp hx with hx | hx
    · exact hqints x hx
    · obtain ⟨d, hd, hx⟩ := Term.mem_freeConds.mp hx
      exact hints d (Solver.mem_related.mp hd).1 x hx
  obtain ⟨hle, hconsistent, hanswer⟩ := Solver.check_decided hB hb hs hq hcone hsat
  rw [check, Build.bind_apply]
  rcases hanswer with ⟨m, hresult, hmodel, hwidth, hm⟩ | ⟨hresult, hm⟩
  · refine Or.inl ⟨m, ?_, hwidth, hm⟩
    obtain ⟨ρ, hρ⟩ := hsat
    have hfits : m.Fits full.free := by
      intro x hx c hc
      rw [hwidth x.1 c hc]
      exact ((List.mem_append.mp (hfull.free hx)).elim (hconstraint x) (hqints x)).symm
    have hholds : full.holds (ρ.override m) = true := by
      rw [hfull.holds, Bool.and_eq_true, List.all_eq_true]
      exact hm ρ hρ
    have hverify := verify_of_holds hconsistent (hfull.held.mono hle) hfits hholds
    dsimp only
    rw [hresult, hmodel]
    exact hverify
  · refine Or.inr ⟨?_, hm⟩
    dsimp only
    rw [hresult]
    rfl

/-- The constraints that the asserts come to. -/
def constraints (fresh : σ) (asserts : Trace) : Solver σ :=
  (asserts.map Predicate.expr).foldl Solver.add { backend := fresh }

theorem constraints_spec (fresh : σ) (hb : b.Consistent) {asserts : Trace} (hmade : ∀ d ∈ asserts, d.Made b) :
    (constraints fresh asserts).Indexed b ∧ (∀ ρ, (constraints fresh asserts).HoldsFor ρ ↔ asserts.HoldsFor ρ) ∧
      ∀ d ∈ (constraints fresh asserts).constraints, ∃ p ∈ asserts, d.free ⊆ p.cond.free := by
  have hheld : ∀ p ∈ asserts.map Predicate.expr, b.Holds p :=
    List.forall_mem_map.mpr fun p hp => (hmade p hp).expr.held
  obtain ⟨hindexed, hholds⟩ := Solver.addAll_spec hb (Solver.indexed_fresh fresh) hheld
  refine ⟨hindexed, fun ρ => ?_, fun d hd => ?_⟩
  · rw [constraints, hholds, and_iff_right nofun, List.forall_mem_map]
    exact forall₂_congr fun p hp => (hmade p hp).expr_holds_iff
  · obtain ⟨p, hp, heq⟩ := List.mem_map.mp ((Solver.mem_addAll hd).resolve_left List.not_mem_nil)
    exact ⟨p, hp, heq ▸ (hmade p hp).expr.free⟩

/-- All constraints and the condition. -/
def whole (s : Solver σ) (q : Cond) : Build Cond := do Build.join .and (← s.conjunction) q

theorem whole_runs {s : Solver σ} {q : Cond} (hb : b.Consistent) (hs : s.Indexed b) (hq : b.Holds q) :
    Build.Runs (whole s q) b fun r c =>
      c.MeansCond r (fun ρ => s.constraints.all (·.holds ρ) && q.holds ρ)
        (Term.freeConds s.constraints ++ q.free) := by
  refine Build.Runs.bind (Solver.conjunction_runs hb hs) fun r c hle hc hr => ?_
  refine (Build.join_runs hc hr.held (hq.mono hle) .and).imp fun r' d _ _ hr' => hr'.congr (fun ρ => ?_) ?_
  · rw [hr.holds]
    rfl
  · exact List.append_subset.mpr
      ⟨List.Subset.trans hr.free (List.subset_append_left _ _), List.subset_append_right _ _⟩

theorem findCounterexample_eq (asserts : Trace) (query : Predicate) :
    (oracle B fresh).findCounterexample asserts query () b =
      let s := constraints fresh asserts
      let full := whole s query.flip.expr b
      let out := check B s query.flip.expr full.1 full.2
      ((out.1.1, ()), out.2) := by
  have hadd : asserts.foldl (fun s p => s.add p.expr) { backend := fresh } = constraints fresh asserts :=
    List.foldl_map.symm
  unfold Oracle.findCounterexample oracle whole
  simp only [hadd, Build.bind_apply]
  rfl

/-- The search finds a model that satisfied asserts stay satisfied under and the query fails under, or whatever
satisfies the asserts satisfies the query. -/
theorem findCounterexample_decided (hB : B.Exact fresh) (hb : b.Consistent) {asserts : Trace} {query : Predicate}
    (hmade : ∀ d ∈ query :: asserts, d.Made b)
    (hints : ∀ d ∈ query :: asserts, ∀ x ∈ d.cond.free, x.2 = intWidth) (hsat : ∃ ρ, asserts.HoldsFor ρ) :
    let answer := ((oracle B fresh).findCounterexample asserts query () b).1.1
    (∃ m : Model, answer = .ok (some m) ∧ (∀ name c, m.find? name = some c → c.width = intWidth) ∧
      ∀ ρ, asserts.HoldsFor ρ → asserts.HoldsFor (ρ.override m) ∧ query.flip.HoldsFor (ρ.override m)) ∨
    answer = .ok none ∧ ∀ ρ, asserts.HoldsFor ρ → ¬query.flip.HoldsFor ρ := by
  rw [List.forall_mem_cons] at hmade hints
  have hopposite := hmade.1.flip.expr
  obtain ⟨hindexed, hholds, hfree⟩ := constraints_spec fresh hb hmade.2
  have hbackend : (constraints fresh asserts).backend = fresh := Solver.backend_addAll _ _
  have hconstraints : ∀ d ∈ (constraints fresh asserts).constraints, ∀ x ∈ d.free, x.2 = intWidth := by
    intro d hd x hx
    obtain ⟨p, hp, hsub⟩ := hfree d hd
    exact hints.2 p hp x (hsub hx)
  have hfull := whole_runs hb hindexed hopposite.held
  have hanswer := check_decided (hbackend.symm ▸ hB) hfull.consistent (hindexed.mono hfull.grows)
    (hopposite.held.mono hfull.grows) hconstraints (fun x hx => hints.1 x (hopposite.free hx))
    (hsat.imp fun ρ => (hholds ρ).mpr) hfull.post
  simp only [hholds, ← Bool.not_eq_true, hmade.1.flip.expr_holds_iff] at hanswer
  rw [findCounterexample_eq]
  exact hanswer

end SolverOracle

/-- Applying a model of integer words overrides the values of the symbolic inputs. -/
theorem InputMap.applyModel_agree {m : Model} (hm : ∀ name c, m.find? name = some c → c.width = intWidth)
    (inputs : InputMap) : (inputs.applyModel m).valuation.Agree (inputs.valuation.override m) inputs.symbols := by
  intro x hx
  refine valuation_applyModel_eq (fun y hy c hc => ?_) hx
  obtain ⟨i, -, rfl⟩ := List.mem_map.mp hy
  exact hm _ c hc

/-- Over an exact backend, a search for a counterexample always has an answer if the asserts can be satisfied.
It is refused exactly if there is no counterexample, and the model that it ends with can be applied to all inputs
that satisfy the asserts. -/
theorem sliced_counterexamples_extend {σ : Type} {B : Backend σ} {fresh : σ} (hB : B.Exact fresh)
    (hb : b.Consistent) {asserts : Trace} {query : Predicate} (hmade : ∀ d ∈ query :: asserts, d.Made b)
    (hints : ∀ d ∈ query :: asserts, ∀ x ∈ d.cond.free, x.2 = intWidth) (hsat : ∃ ρ, asserts.HoldsFor ρ) :
    ∃ r : Option Model,
      ((SolverOracle.oracle B fresh).findCounterexample asserts query () b).1.1 = .ok r ∧
      (r = none ↔ ¬∃ ρ, asserts.HoldsFor ρ ∧ query.flip.HoldsFor ρ) ∧
      ∀ m, r = some m → ∀ inputs : InputMap, (∀ d ∈ query :: asserts, d.cond.free ⊆ inputs.symbols) →
        asserts.HoldsFor inputs.valuation →
          asserts.HoldsFor (inputs.applyModel m).valuation ∧
            query.flip.HoldsFor (inputs.applyModel m).valuation := by
  rcases SolverOracle.findCounterexample_decided hB hb hmade hints hsat with
    ⟨m, hanswer, hwidth, hm⟩ | ⟨hanswer, hnone⟩
  · refine ⟨some m, hanswer, ⟨nofun, fun h => ?_⟩, ?_⟩
    · obtain ⟨ρ, hρ⟩ := hsat
      exact absurd ⟨_, hm ρ hρ⟩ h
    · rintro _ ⟨⟩ inputs hbound hinputs
      have hsame : ∀ d ∈ query :: asserts,
          d.cond.holds (inputs.applyModel m).valuation = d.cond.holds (inputs.valuation.override m) := fun d hd =>
        Term.holds_congr hb (hmade d hd).held ((inputs.applyModel_agree hwidth).mono (hbound d hd))
      obtain ⟨hkept, hflipped⟩ := hm inputs.valuation hinputs
      exact ⟨fun d hd => (hsame d (List.mem_cons_of_mem _ hd)).trans (hkept d hd),
        (hsame query List.mem_cons_self).trans hflipped⟩
  · refine ⟨none, hanswer, ⟨fun _ => ?_, fun _ => rfl⟩, nofun⟩
    rintro ⟨ρ, hρ, hflipped⟩
    exact hnone ρ hρ hflipped

/-- The symbol is below the bound, or not. -/
def Predicate.below (name : String) (bound : Int) (taken : Bool) : Build Predicate := do
  let x ← Build.symbol name intWidth
  let v ← Build.int bound intWidth
  Predicate.make (← Build.compare .slt x v) taken

theorem Predicate.below_runs (hb : b.Consistent) (name : String) (bound : Int) (taken : Bool) :
    Build.Runs (below name bound taken) b fun d c =>
      d.Made c ∧ d.taken = taken ∧ d.cond.free ⊆ [(name, intWidth)] ∧
        ∀ ρ, d.cond.holds ρ = (ρ name intWidth).slt (BitVec.ofInt intWidth bound) := by
  refine Build.Runs.bind (Build.symbol_runs hb name intWidth) fun x c hle hc hx => ?_
  refine Build.Runs.bind (Build.int_runs hc bound intWidth []) fun v c' hle' hc' hv => ?_
  have hx' := (hx.1.mono hle').toHoldsAt
  refine Build.Runs.bind (Build.compare_runs hc' .slt hx' hv.toHoldsAt) fun p d _ hd hp => ?_
  refine (make_made hd hp.held taken).imp fun r e _ _ hr => ?_
  obtain ⟨hmade, rfl, htaken⟩ := hr
  refine ⟨hmade, htaken, List.Subset.trans hp.free ?_, fun ρ => ?_⟩
  · exact List.append_subset.mpr ⟨hx.1.free, List.Subset.trans hv.free (List.nil_subset _)⟩
  · rw [hp.holds, hx.1.bits, hv.bits]
    rfl

/-- Two asserts and a query about one of their symbols. -/
def Predicate.twoSymbols : Build (Trace × Predicate) := do
  let x ← below "x" 0 true
  let y ← below "y" 10 true
  return ([x, y], ← below "y" 0 false)

theorem Predicate.twoSymbols_runs : Build.Runs twoSymbols {} fun r c =>
    (∀ d ∈ r.2 :: r.1, d.Made c ∧ d.cond.free ⊆ [("x", intWidth), ("y", intWidth)]) ∧
    ∀ ρ : Valuation, (r.1.HoldsFor ρ ↔ (ρ "x" 64).slt 0 = true ∧ (ρ "y" 64).slt 10 = true) ∧
      (r.2.flip.HoldsFor ρ ↔ (ρ "y" 64).slt 0 = true) := by
  refine Build.Runs.bind (below_runs consistent_empty "x" 0 true) fun x c hle hc hx => ?_
  refine Build.Runs.bind (below_runs hc "y" 10 true) fun y c' hle' hc' hy => ?_
  refine Build.Runs.bind (below_runs hc' "y" 0 false) fun q d hle'' hd hq => Build.Runs.pure hd ?_
  obtain ⟨hxmade, hxtaken, hxfree, hxholds⟩ := hx
  obtain ⟨hymade, hytaken, hyfree, hyholds⟩ := hy
  obtain ⟨hqmade, hqtaken, hqfree, hqholds⟩ := hq
  refine ⟨?_, fun ρ => ⟨?_, ?_⟩⟩
  · simp only [List.forall_mem_cons, List.not_mem_nil, false_implies, implies_true, and_true]
    exact ⟨⟨hqmade, List.Subset.trans hqfree (List.subset_cons_self _ _)⟩,
      ⟨hxmade.mono (hle'.trans hle''), List.Subset.trans hxfree (List.cons_subset_cons _ (List.nil_subset _))⟩,
      hymade.mono hle'', List.Subset.trans hyfree (List.subset_cons_self _ _)⟩
  · simp only [Trace.HoldsFor, HoldsFor, List.forall_mem_cons, List.not_mem_nil, false_implies, implies_true,
      and_true, hxtaken, hytaken, hxholds, hyholds]
    rfl
  · rw [HoldsFor, flip, hqtaken, hqholds]
    rfl

theorem sliced_counterexamples_extend_of_two_symbols :
    let inputs : InputMap := ⟨[⟨"x", -7, true⟩, ⟨"y", 3, true⟩]⟩
    ∃ m, ((SolverOracle.oracle BackendState.backend (.grid Grid.everyInt false none)).findCounterexample
        (Predicate.twoSymbols {}).1.1 (Predicate.twoSymbols {}).1.2 () (Predicate.twoSymbols {}).2).1.1 =
          .ok (some m) ∧
      Trace.HoldsFor (inputs.applyModel m).valuation (Predicate.twoSymbols {}).1.1 ∧
      Predicate.HoldsFor (inputs.applyModel m).valuation (Predicate.twoSymbols {}).1.2.flip := by
  intro inputs
  obtain ⟨hmade, hholds⟩ := Predicate.twoSymbols_runs.post
  have hints : ∀ x ∈ [("x", intWidth), ("y", intWidth)], x.2 = intWidth := by simp
  have hinputs := (hholds inputs.valuation).1.mpr (by decide)
  obtain ⟨r, hanswer, hnone, hsome⟩ := sliced_counterexamples_extend (BackendState.grid_exact Grid.mem_everyInt none)
    Predicate.twoSymbols_runs.consistent (fun d hd => (hmade d hd).1) (fun d hd x hx => hints x ((hmade d hd).2 hx))
    ⟨inputs.valuation, hinputs⟩
  cases r with
  | none =>
      let other : InputMap := ⟨[⟨"x", -7, true⟩, ⟨"y", -1, true⟩]⟩
      have hother := hholds other.valuation
      exact absurd ⟨other.valuation, hother.1.mpr (by decide), hother.2.mpr (by decide)⟩ (hnone.mp rfl)
  | some m => exact ⟨m, hanswer, hsome m rfl inputs (fun d hd => (hmade d hd).2) hinputs⟩

end Pathwise
