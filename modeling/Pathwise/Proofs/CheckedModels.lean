import Pathwise.Proofs.ConstraintSlices
import Pathwise.Proofs.OrderIndependence
import Pathwise.Proofs.SlicedModels

/-! Models are checked before they are returned. The backend of the solver need not be right about anything: its
model is put into the conjunction of everything that was asked, and only a model that does not make it false gets
through. The conjunction is simplified while it is built, but no conjunct gets lost on the way: unless the whole is
the constant false, each part of each conjunct is one of its parts or constantly true. Evaluation joins the values
of the parts one by one, so a part that the model covers and makes false makes the whole false, whatever is left
open in the others. -/

namespace Pathwise

open Builder

variable {σ : Type} {b c : Builder} {m : Model} {ρ : Valuation}

/-! ### Evaluating a conjunction -/

theorem Build.truth?_join_of_false (hb : b.Consistent) {p q : Cond}
    (h : p.truth? = some false ∨ q.truth? = some false) : (join .and p q b).1.truth? = some false := by
  unfold join
  cases hp : p.truth? with
  | some v =>
      cases v with
      | false => exact truth?_truth hb false
      | true =>
          rw [hp] at h
          exact h.resolve_left nofun
  | none =>
      rw [hp] at h
      rw [h.resolve_left nofun]
      exact truth?_truth hb false

namespace Term

open EvalM

/-- Once the conditions that were joined so far are false, or one that is still to come is, the result is. -/
theorem evalConds_of_false {ps : List Cond} : ∀ {s s' : Evaluation} {acc q : Cond}, Sound m s →
    (∀ p ∈ ps, s.builder.Holds p) → s.builder.Holds acc →
    (acc.truth? = some false ∨ ∃ p ∈ ps, m.Covers p.free ∧ p.holds (ρ.override m) = false) →
    evalConds m .and acc ps s = (.ok q, s') → q.truth? = some false := by
  induction ps with
  | nil =>
      intro s s' acc q _ _ _ hfalse hrun
      rw [evalConds] at hrun
      cases hrun
      exact hfalse.resolve_right (by simp)
  | cons p ps ih =>
      intro s s' acc q hs hps hacc hfalse hrun
      rw [List.forall_mem_cons] at hps
      rw [evalConds] at hrun
      rcases p.evaluable s hs hps.1 with ⟨a, s₁, heval, hs₁, hle, hfits, ha⟩ | ⟨e, s₁, heval, -⟩
      · rw [bind_of_ok heval] at hrun
        have hjoin := Build.join_runs hs₁.consistent (hacc.mono hle) ha.held .and
        have hlift : (lift (Build.join .and acc a) : EvalM Cond) s₁ =
            (.ok (Build.join .and acc a s₁.builder).1, { s₁ with builder := (Build.join .and acc a s₁.builder).2 }) :=
          rfl
        rw [bind_of_ok hlift] at hrun
        refine ih (hs₁.grow hjoin.consistent hjoin.grows) (fun p' hp' => (hps.2 p' hp').mono (hle.trans hjoin.grows))
          hjoin.post.held ?_ hrun
        rcases hfalse with hfalse | ⟨p', hp', hm, hfalse⟩
        · exact Or.inl (Build.truth?_join_of_false hs₁.consistent (Or.inl hfalse))
        · rcases List.mem_cons.mp hp' with rfl | hp'
          · refine Or.inl (Build.truth?_join_of_false hs₁.consistent (Or.inr ?_))
            rw [ha.truth?_eq hs₁.consistent hm ρ, hfalse]
          · exact Or.inr ⟨p', hp', hm, hfalse⟩
      · rw [bind_of_error heval] at hrun
        cases hrun

end Term

theorem Build.eval_junction_of_false (hb : b.Consistent) {i : Nat} {args : List Cond} {r u : Cond}
    (hheld : b.Holds (.junction i .and args : Cond)) (hr : r ∈ args) (hm : m.Covers r.free)
    (hfalse : r.holds (ρ.override m) = false) (hu : (eval m (.junction i .and args) b).1 = .ok u) :
    u.truth? = some false := by
  have hstart := truth_runs hb true []
  have hargs : ∀ p ∈ args, (truth true b).2.Holds p := fun p hp => (hb.children hheld p hp).mono hstart.grows
  change ((Term.junction i .and args).evalM m { builder := b }).1 = _ at hu
  rw [Term.evalM, EvalM.remember_of_none Std.TreeMap.getElem?_emptyc] at hu
  have hjoin : (do
      let start ← EvalM.lift (truth Connective.and.unit)
      Term.evalConds m .and start args : EvalM Cond) { builder := b } =
        Term.evalConds m .and (truth true b).1 args { builder := (truth true b).2 } := rfl
  rcases hconds : Term.evalConds m .and (truth true b).1 args { builder := (truth true b).2 } with ⟨e | q, s'⟩
  · rw [bind_of_error (hjoin.trans hconds)] at hu
    cases hu
  · rw [bind_of_ok (hjoin.trans hconds)] at hu
    cases hu
    exact Term.evalConds_of_false (EvalM.sound_fresh hstart.consistent) hargs hstart.post.1.held
      (Or.inr ⟨r, hr, hm, hfalse⟩) hconds

/-- A part that a model covers and makes false makes the whole condition false. -/
theorem Build.eval_of_false_part (hb : b.Consistent) {f r u : Cond} (hf : b.Holds f) (hr : r ∈ f.condParts .and)
    (hm : m.Covers r.free) (hfalse : r.holds (ρ.override m) = false) (hu : (eval m f b).1 = .ok u) :
    u.truth? = some false := by
  have hwhole : r = f → u.truth? = some false := by
    rintro rfl
    obtain ⟨hc, -, ⟨u', hu', -, hmeans⟩ | ⟨e, he, -⟩⟩ := eval_spec hb hf m
    · cases hu'.symm.trans hu
      rw [hmeans.truth?_eq hc hm ρ, hfalse]
    · cases he.symm.trans hu
  cases f with
  | junction i o args =>
      by_cases hop : o = .and
      · subst hop
        rw [Term.condParts, if_pos rfl] at hr
        exact eval_junction_of_false hb hf hr hm hfalse hu
      · rw [Term.condParts, if_neg hop] at hr
        exact hwhole (List.mem_singleton.mp hr)
  | _ => exact hwhole (List.mem_singleton.mp hr)

/-! ### Checking a model -/

/-- The model gives no symbol of the condition a word of another width, and makes no part of it false that it
covers. -/
structure Model.Passes (m : Model) (f : Cond) : Prop where
  fits : m.Fits f.free
  parts : ∀ r ∈ f.condParts .and, m.Covers r.free → ∀ ρ : Valuation, r.holds (ρ.override m) = true

theorem Term.free_of_truth? {p : Cond} {v : Bool} (h : p.truth? = some v) : p.free = [] := by
  rw [eq_truth_of_truth? h]
  rfl

theorem Model.Passes.truth?_ne_false {f : Cond} (hm : m.Passes f) : f.truth? ≠ some false := by
  intro hfalse
  have hmem : f ∈ f.condParts .and := by
    rw [Term.condParts_of_truth? hfalse]
    exact List.mem_singleton_self f
  have hcovers : m.Covers f.free := by
    rw [Term.free_of_truth? hfalse]
    exact nofun
  have htrue := hm.parts f hmem hcovers fun _ _ => 0
  rw [Term.holds_of_truth? hfalse] at htrue
  cases htrue

/-- A model that is not refused passes. -/
theorem SolverOracle.verify_cases (hb : b.Consistent) {f : Cond} (hf : b.Holds f) (m : Model) :
    (verify f m b).1 = .ok (some m) ∧ m.Passes f ∨ ∃ err, (verify f m b).1 = .error err := by
  rw [verify, Build.bind_apply]
  obtain ⟨-, -, ⟨u, hu, hfits, -⟩ | ⟨e, he, -⟩⟩ := Build.eval_spec hb hf m
  · rw [hu]
    dsimp only
    split_ifs with hfalse
    · exact Or.inr ⟨_, rfl⟩
    · refine Or.inl ⟨rfl, hfits, fun r hr hm ρ => ?_⟩
      rw [← Bool.not_eq_false]
      exact fun hr' => hfalse (Build.eval_of_false_part hb hf hr hm hr' hu)
  · rw [he]
    exact Or.inr ⟨_, rfl⟩

/-! ### Nothing gets lost -/

theorem Term.exists_mem_condParts (op : Connective) {p : Cond} {x : String × Nat} (h : x ∈ p.free) :
    ∃ r ∈ p.condParts op, x ∈ r.free := by
  cases p with
  | junction i o args =>
      by_cases hop : o = op
      · rw [condParts, if_pos hop]
        exact mem_freeConds.mp h
      · rw [condParts, if_neg hop]
        exact ⟨_, List.mem_singleton_self _, h⟩
  | _ => exact ⟨_, List.mem_singleton_self _, h⟩

/-- Where nothing is decided, all that conditions come to is there or does not matter. -/
theorem Connective.Equates.mem {op : Connective} {ps qs : List Cond} (h : op.Equates ps qs) (hnot : ¬op.Decided ps)
    {r : Cond} (hr : r ∈ qs) : r.truth? = some op.unit ∨ r ∈ ps := by
  cases hv : r.truth? with
  | none => exact Or.inr ((h.parts hnot r (Term.truth?_eq_none_iff.mp hv)).mpr hr)
  | some v =>
      refine Or.inl (congrArg some ?_)
      by_contra hne
      exact hnot (h.decided.mpr ⟨r, hr, hv.trans (congrArg some (Bool.eq_not.mpr hne))⟩)

namespace SolverOracle

/-- The conjunction of constraints and a condition is constantly false, or the parts of what was added and of the
condition are there, if they could be false. -/
theorem whole_parts (hb : b.Consistent) (htidy : b.Tidy) {s : Solver σ} {ps : List Cond} (hs : s.Keeps b ps) {g : Cond}
    (hg : b.Holds g) : (whole s g b).1.truth? = some false ∨ ∀ p ∈ ps ++ [g], ∀ r ∈ p.condParts .and,
      r.truth? = some true ∨ r ∈ (whole s g b).1.condParts .and := by
  have hall := Request.all_runs hb hs.indexed.held
  have hjoin := Build.join_equates hall.consistent (Build.all_tidy hb htidy hs.indexed.held) hall.post.held
    (hg.mono hall.grows) .and
  have hequates : Connective.and.Equates ((whole s g b).1.condParts .and)
      (s.constraints.flatMap (Term.condParts .and) ++ g.condParts .and) :=
    hjoin.trans ((Build.all_equates hb htidy hs.indexed.held).append (.of_mem_iff fun _ => Iff.rfl))
  have hrun := whole_runs hb hs.indexed hg
  by_cases hdecided : Connective.and.Decided ((whole s g b).1.condParts .and)
  · exact Or.inl (Term.truth?_of_decided hrun.consistent hrun.post.held hdecided)
  · refine Or.inr fun p hp r hr => ?_
    rcases List.mem_append.mp hp with hp | hp
    · by_cases htrue : p.truth? = some true
      · rw [Term.condParts_of_truth? htrue, List.mem_singleton] at hr
        exact Or.inl (hr ▸ htrue)
      · have hkept : p ∈ s.constraints := (hs.mem_iff p).mpr ⟨hp, htrue⟩
        exact hequates.mem hdecided (List.mem_append_left _ (List.mem_flatMap.mpr ⟨p, hkept, hr⟩))
    · rw [List.mem_singleton.mp hp] at hr
      exact hequates.mem hdecided (List.mem_append_right _ hr)

end SolverOracle

namespace Query

/-- The symbols of a question. -/
def free (q : Query) : List (String × Nat) := Term.freeConds q.conjuncts

/-- What is asked for together, with conjunctions taken apart. -/
def parts (q : Query) : List Cond := q.conjuncts.flatMap (Term.condParts .and)

/-- The condition says what the question asks for. Unless it is constantly false, no part of the question is missing
that could be false. -/
structure StatedBy (q : Query) (f : Cond) : Prop where
  holds : ∀ ρ, f.holds ρ = true ↔ q.HoldsFor ρ
  free : f.free ⊆ q.free
  parts : f.truth? = some false ∨ ∀ r ∈ q.parts, r.truth? = some true ∨ r ∈ f.condParts .and

variable {q : Query} {f r : Cond}

theorem Made.holdsFor_iff_parts (hq : q.Made b) : q.HoldsFor ρ ↔ ∀ r ∈ q.parts, r.holds ρ = true := by
  have hparts : ∀ p : Cond, p.holds ρ = true ↔ ∀ r ∈ p.condParts .and, r.holds ρ = true := by
    intro p
    rw [← Term.total_condParts .and, Connective.total_iff_and, List.forall_mem_map]
  rw [hq.holdsFor_iff, parts, List.forall_mem_flatMap]
  exact forall₂_congr fun p _ => hparts p

theorem free_subset_of_mem_parts (hr : r ∈ q.parts) : r.free ⊆ q.free := by
  obtain ⟨p, hp, hr⟩ := List.mem_flatMap.mp hr
  exact fun x hx => Term.mem_freeConds.mpr ⟨p, hp, Term.free_subset_of_mem_condParts hr hx⟩

theorem exists_mem_parts {x : String × Nat} (hx : x ∈ q.free) : ∃ r ∈ q.parts, x ∈ r.free := by
  obtain ⟨p, hp, hx⟩ := Term.mem_freeConds.mp hx
  obtain ⟨r, hr, hx⟩ := Term.exists_mem_condParts .and hx
  exact ⟨r, List.mem_flatMap.mpr ⟨p, hp, hr⟩, hx⟩

theorem StatedBy.fits (hf : q.StatedBy f) (hm : m.Passes f) : m.Fits q.free := by
  intro x hx
  obtain ⟨r, hr, hx⟩ := exists_mem_parts hx
  rcases hf.parts.resolve_left hm.truth?_ne_false r hr with htrue | hmem
  · rw [Term.free_of_truth? htrue] at hx
    cases hx
  · exact hm.fits x (Term.free_subset_of_mem_condParts hmem hx)

theorem StatedBy.covered (hf : q.StatedBy f) (hm : m.Passes f) (hr : r ∈ q.parts) (hcovers : m.Covers r.free)
    (ρ : Valuation) : r.holds (ρ.override m) = true := by
  rcases hf.parts.resolve_left hm.truth?_ne_false r hr with htrue | hmem
  · exact Term.holds_of_truth? htrue _
  · exact hm.parts r hmem hcovers ρ

/-- What the solver of a question starts from. -/
def solver (fresh : σ) : Query → Solver σ
  | .solve _ => { backend := fresh }
  | .counterexample asserts _ => SolverOracle.constraints fresh asserts

/-- The condition that is put to the solver. -/
def goal : Query → Cond
  | .solve p => p
  | .counterexample _ query => query.flip.expr

/-- The condition that a model is checked against. -/
def whole (fresh : σ) : Query → Build Cond
  | .solve p => return p
  | .counterexample asserts query => SolverOracle.whole (SolverOracle.constraints fresh asserts) query.flip.expr

theorem solver_indexed (fresh : σ) (hb : b.Consistent) (hq : q.Made b) : (q.solver fresh).Indexed b := by
  cases q with
  | solve p => exact Solver.indexed_fresh fresh
  | counterexample asserts query =>
      exact (SolverOracle.constraints_spec fresh hb (List.forall_mem_cons.mp hq).2).1

theorem Made.goal (hq : q.Made b) : b.Holds q.goal := by
  cases q with
  | solve p => exact hq
  | counterexample asserts query => exact (List.forall_mem_cons.mp hq).1.flip.expr.held

theorem whole_states (fresh : σ) (hb : b.Consistent) (htidy : b.Tidy) (hq : q.Made b) :
    Build.Runs (q.whole fresh) b fun f c => c.Holds f ∧ q.StatedBy f := by
  cases q with
  | solve p =>
      refine Build.Runs.pure hb ⟨hq, fun ρ => Iff.rfl, ?_, Or.inr fun r hr => Or.inr ?_⟩
      · exact fun x hx => Term.mem_freeConds.mpr ⟨p, List.mem_singleton_self p, hx⟩
      · rwa [Query.parts, conjuncts, List.flatMap_singleton] at hr
  | counterexample asserts query =>
      obtain ⟨hquery, hasserts⟩ := List.forall_mem_cons.mp hq
      have hheld : ∀ p ∈ asserts.map Predicate.expr, b.Holds p :=
        List.forall_mem_map.mpr fun d hd => (hasserts d hd).expr.held
      have hkeeps := (Solver.keeps_fresh hb fresh).addAll hheld
      have hrun := SolverOracle.whole_runs hb hkeeps.indexed hquery.flip.expr.held
      refine hrun.of_post ⟨hrun.post.held, fun ρ => ?_, fun x hx => ?_, ?_⟩
      · rw [hrun.post.holds, Bool.and_eq_true, List.all_eq_true, hquery.flip.expr_holds_iff]
        exact and_congr_left' ((SolverOracle.constraints_spec fresh hb hasserts).2.1 ρ)
      · rw [Query.free, conjuncts, Term.mem_freeConds]
        rcases List.mem_append.mp (hrun.post.free hx) with hx | hx
        · obtain ⟨p, hp, hx⟩ := Term.mem_freeConds.mp hx
          exact ⟨p, List.mem_append_left _ (by simpa using ((hkeeps.mem_iff p).mp hp).1), hx⟩
        · exact ⟨_, List.mem_append_right _ (List.mem_singleton_self _), hx⟩
      · refine (SolverOracle.whole_parts hb htidy hkeeps hquery.flip.expr.held).imp_right fun hparts r hr => ?_
        obtain ⟨p, hp, hr⟩ := List.mem_flatMap.mp hr
        exact hparts p (by simpa [conjuncts] using hp) r hr

end Query

/-! ### The answer -/

/-- Whatever the backend answers, it does to the builder what building terms does. -/
def Backend.Builds (B : Backend σ) : Prop :=
  ∀ (p : Cond) (s : σ) (b : Builder), b.Consistent → b.Holds p →
    (B.check p s b).2.Consistent ∧ b ≤ (B.check p s b).2

theorem Solver.check_builds {B : Backend σ} (hB : B.Builds) (hb : b.Consistent) {s : Solver σ} (hs : s.Indexed b)
    {g : Cond} (hg : b.Holds g) : (s.check B g b).2.Consistent ∧ b ≤ (s.check B g b).2 := by
  have hsliced := sliced_means hb hs hg
  obtain ⟨hconsistent, hgrows⟩ := hB _ s.backend _ hsliced.consistent hsliced.post.held
  exact ⟨hconsistent, hsliced.grows.trans hgrows⟩

namespace SolverOracle

variable {B : Backend σ} {fresh : σ} {q : Query}

/-- What the backend says to a question, and its model. -/
def found (B : Backend σ) (fresh : σ) (q : Query) (b : Builder) : SatResult × Model :=
  let out := (q.solver fresh).check B q.goal (q.whole fresh b).2
  (out.1.1, (out.1.2.model B).getD {})

theorem ask_eq (B : Backend σ) (fresh : σ) (q : Query) (b : Builder) : ((oracle B fresh).ask q () b).1.1 =
    (check B (q.solver fresh) q.goal (q.whole fresh b).1 (q.whole fresh b).2).1.1 := by
  cases q with
  | solve p => rfl
  | counterexample asserts query => exact congrArg (·.1.1) (findCounterexample_eq asserts query)

/-- A model of the backend is checked, in a builder that has grown. -/
theorem answer_of_sat (hB : B.Builds) (hb : b.Consistent) (htidy : b.Tidy) (hq : q.Made b)
    (hsat : (found B fresh q b).1 = .sat) :
    ∃ f c, c.Consistent ∧ c.Holds f ∧ q.StatedBy f ∧
      ((oracle B fresh).ask q () b).1.1 = (verify f (found B fresh q b).2 c).1 := by
  have hwhole := q.whole_states fresh hb htidy hq
  have hq' := hq.mono hwhole.grows
  obtain ⟨hconsistent, hgrows⟩ := Solver.check_builds hB hwhole.consistent
    (q.solver_indexed fresh hwhole.consistent hq') hq'.goal
  refine ⟨_, _, hconsistent, hwhole.post.1.mono hgrows, hwhole.post.2, ?_⟩
  rw [ask_eq, check, Build.bind_apply]
  unfold found at *
  dsimp only at *
  rw [hsat]
  rfl

/-- A model of the backend is returned or ends in an error. -/
theorem answer_cases (hB : B.Builds) (hb : b.Consistent) (htidy : b.Tidy) (hq : q.Made b)
    (hsat : (found B fresh q b).1 = .sat) :
    ((oracle B fresh).ask q () b).1.1 = .ok (some (found B fresh q b).2) ∧
        (∃ f, q.StatedBy f ∧ (found B fresh q b).2.Passes f) ∨
      ∃ err, ((oracle B fresh).ask q () b).1.1 = .error err := by
  obtain ⟨f, c, hc, hf, hstated, hanswer⟩ := answer_of_sat hB hb htidy hq hsat
  rw [hanswer]
  exact (verify_cases hc hf _).imp_left fun h => ⟨h.1, f, hstated, h.2⟩

theorem answer_of_not_sat (hsat : (found B fresh q b).1 ≠ .sat) :
    ((oracle B fresh).ask q () b).1.1 = .ok none ∧ (found B fresh q b).1 = .unsat ∨
      (∃ err, ((oracle B fresh).ask q () b).1.1 = .error err) ∧ (found B fresh q b).1 ≠ .unsat := by
  rw [ask_eq, check, Build.bind_apply]
  unfold found at *
  dsimp only at *
  cases hr : ((q.solver fresh).check B q.goal (q.whole fresh b).2).1.1 with
  | sat => exact absurd hr hsat
  | unsat => exact Or.inl ⟨rfl, rfl⟩
  | unknown => exact Or.inr ⟨⟨_, rfl⟩, by decide⟩
  | error => exact Or.inr ⟨⟨_, rfl⟩, by decide⟩

/-- A returned model is the backend's, and passes. -/
theorem passes_of_answer (hB : B.Builds) (hb : b.Consistent) (htidy : b.Tidy) (hq : q.Made b) {m : Model}
    (h : ((oracle B fresh).ask q () b).1.1 = .ok (some m)) :
    found B fresh q b = (.sat, m) ∧ ∃ f, q.StatedBy f ∧ m.Passes f := by
  by_cases hsat : (found B fresh q b).1 = .sat
  · rcases answer_cases hB hb htidy hq hsat with ⟨hanswer, hpasses⟩ | ⟨err, herror⟩
    · cases hanswer.symm.trans h
      exact ⟨Prod.ext hsat rfl, hpasses⟩
    · cases herror.symm.trans h
  · rcases answer_of_not_sat hsat with ⟨hnone, -⟩ | ⟨⟨err, herror⟩, -⟩
    · cases hnone.symm.trans h
    · cases herror.symm.trans h

theorem answer_eq_none_iff (hB : B.Builds) (hb : b.Consistent) (htidy : b.Tidy) (hq : q.Made b) :
    ((oracle B fresh).ask q () b).1.1 = .ok none ↔ (found B fresh q b).1 = .unsat := by
  by_cases hsat : (found B fresh q b).1 = .sat
  · rw [hsat]
    rcases answer_cases hB hb htidy hq hsat with ⟨hanswer, -⟩ | ⟨err, herror⟩
    · simp [hanswer]
    · simp [herror]
  · rcases answer_of_not_sat hsat with ⟨hnone, hunsat⟩ | ⟨⟨err, herror⟩, hunsat⟩
    · exact iff_of_true hnone hunsat
    · refine iff_of_false ?_ hunsat
      rw [herror]
      exact nofun

end SolverOracle

/-- The conjunction of what is asked evaluates to true under a model that covers it and satisfies the question. -/
theorem Query.evalBool_all {q : Query} (hb : b.Consistent) (hq : q.Made b) (hm : m.Covers q.free)
    (hholds : q.HoldsFor (ρ.override m)) :
    (Build.evalBool m (Build.all q.conjuncts b).1 (Build.all q.conjuncts b).2).1 = .ok true := by
  have hall := Request.all_runs hb hq.held
  rw [Build.evalBool_of_covers hall.consistent hall.post.held (fun x hx => hm x (hall.post.free hx)) ρ, hall.post.holds,
    List.all_eq_true.mpr (hq.holdsFor_iff.mp hholds)]

/-- Whatever the backend says, a model that the oracle returns is the backend's, gives each symbol of the question a
word of its width, if any, and satisfies each part of the question whose symbols it binds. So a model that binds them
all satisfies what was asked, and the conjunction evaluates to true under it. A model with a word of another width, or
one that covers a part and makes it false, ends in an error, and a model that fits and can be completed to a solution
is returned. -/
theorem returned_models_satisfy (B : Backend σ) (fresh : σ) (hB : B.Builds) {scatter : List Nat → Nat} {b : Builder}
    (hb : Evolves { scatter } b) (q : Query) (hq : q.Made b) :
    let answer := ((SolverOracle.oracle B fresh).ask q () b).1.1
    let found := SolverOracle.found B fresh q b
    (∀ m, answer = .ok (some m) → found = (.sat, m) ∧ m.Fits q.free ∧
      (∀ r ∈ q.parts, (∀ x ∈ r.free, (m.find? x.1).isSome) → ∀ ρ : Valuation, r.holds (ρ.override m) = true) ∧
      ((∀ x ∈ q.free, (m.find? x.1).isSome) → (∀ ρ : Valuation, q.HoldsFor (ρ.override m)) ∧
        ∀ c, c.Consistent → b ≤ c →
          (Build.evalBool m (Build.all q.conjuncts c).1 (Build.all q.conjuncts c).2).1 = .ok true)) ∧
    (found.1 = .sat →
      (∃ x ∈ q.free, ∃ w, found.2.find? x.1 = some w ∧ w.width ≠ x.2) ∨
        (∃ r ∈ q.parts, found.2.Covers r.free ∧ ∃ ρ : Valuation, r.holds (ρ.override found.2) = false) →
      ∃ err, answer = .error err) ∧
    (found.1 = .sat → found.2.Fits q.free → (∃ ρ : Valuation, q.HoldsFor (ρ.override found.2)) →
      answer = .ok (some found.2)) ∧
    (answer = .ok none ↔ found.1 = .unsat) := by
  intro answer found
  have htidy := hb.tidy consistent_empty tidy_empty
  refine ⟨fun m hanswer => ?_, fun hsat hwrong => ?_, fun hsat hfits hholds => ?_,
    SolverOracle.answer_eq_none_iff hB hb.consistent htidy hq⟩
  · obtain ⟨hfound, f, hstated, hpasses⟩ := SolverOracle.passes_of_answer hB hb.consistent htidy hq hanswer
    have hfits := hstated.fits hpasses
    have hparts : ∀ r ∈ q.parts, (∀ x ∈ r.free, (m.find? x.1).isSome) → ∀ ρ : Valuation,
        r.holds (ρ.override m) = true := fun r hr hbound =>
      hstated.covered hpasses hr ((hfits.mono (Query.free_subset_of_mem_parts hr)).covers hbound)
    refine ⟨hfound, hfits, hparts, fun hbound => ?_⟩
    have hholds : ∀ ρ : Valuation, q.HoldsFor (ρ.override m) := fun ρ => hq.holdsFor_iff_parts.mpr fun r hr =>
      hparts r hr (fun x hx => hbound x (Query.free_subset_of_mem_parts hr hx)) ρ
    exact ⟨hholds, fun c hc hle =>
      Query.evalBool_all hc (hq.mono hle) (hfits.covers hbound) (hholds fun _ _ => 0)⟩
  · refine (SolverOracle.answer_cases hB hb.consistent htidy hq hsat).resolve_left ?_
    rintro ⟨-, f, hstated, hpasses⟩
    rcases hwrong with ⟨x, hx, w, hw, hwidth⟩ | ⟨r, hr, hcovers, ρ, hfalse⟩
    · exact hwidth (hstated.fits hpasses x hx w hw)
    · rw [hstated.covered hpasses hr hcovers ρ] at hfalse
      cases hfalse
  · obtain ⟨ρ, hholds⟩ := hholds
    obtain ⟨f, c, hc, hf, hstated, hanswer⟩ := SolverOracle.answer_of_sat hB hb.consistent htidy hq hsat
    exact hanswer.trans (SolverOracle.verify_of_holds hc hf (hfits.mono hstated.free) ((hstated.holds _).mpr hholds))

/-- A backend that says everything to hold under one model. -/
def Backend.claiming (m : Model) : Backend Unit where
  check _ s := pure (.sat, s)
  model _ := some m
  values _ _ _ _ := pure []
  clone s := s

theorem SolverOracle.found_claiming (m : Model) (q : Query) (b : Builder) :
    found (Backend.claiming m) () q b = (.sat, m) := by
  rw [found, Solver.check_eq]
  rfl

theorem Backend.claiming_builds (m : Model) : (claiming m).Builds := fun _ _ _ hb _ => ⟨hb, le_rfl⟩

/-! Predicates about two symbols are built by requests only. -/

theorem Builder.Evolves.compare {b c : Builder} (h : b.Evolves c) (op : CompareOp) {w : Nat} {x y : Term .word}
    (hx : c.HoldsAt w x) (hy : c.HoldsAt w y) : b.Evolves (Build.compare op x y c).2 := by
  have hrequest := h.request (.compare op x y) (show c.Holds x ∧ c.Holds y from ⟨hx.held, hy.held⟩)
  rwa [Request.run, Build.Checked.binary, if_pos (hx.width.trans hy.width.symm)] at hrequest

theorem Builder.Evolves.boolNot {b c : Builder} (h : b.Evolves c) {p : Cond} (hp : c.Holds p) :
    b.Evolves (Build.boolNot p c).2 :=
  h.request (.boolNot p) hp

theorem Predicate.below_evolves {scatter : List Nat → Nat} (hb : Evolves { scatter } b) (name : String) (bound : Int)
    (taken : Bool) : Evolves { scatter } (below name bound taken b).2 := by
  have hx := Build.symbol_runs hb.consistent name intWidth
  have hv := Build.int_runs hx.consistent bound intWidth []
  have hx' := (hx.post.1.mono hv.grows).toHoldsAt
  have hwords : Evolves { scatter } (Build.int bound intWidth (Build.symbol name intWidth b).2).2 :=
    (hb.request (.symbol name intWidth) trivial).request (.int bound intWidth) trivial
  have hcompare := Build.compare_runs hv.consistent .slt hx' hv.post.toHoldsAt
  rw [below, Build.bind_apply, Build.bind_apply, Build.bind_apply]
  exact (hwords.compare .slt hx' hv.post.toHoldsAt).boolNot hcompare.post.held

theorem Predicate.twoSymbols_evolves {scatter : List Nat → Nat} (hb : Evolves { scatter } b) :
    Evolves { scatter } (twoSymbols b).2 := by
  rw [twoSymbols, Build.bind_apply, Build.bind_apply, Build.bind_apply, Build.pure_apply]
  have hx := below_evolves hb "x" 0 true
  have hy := below_evolves hx "y" 10 true
  dsimp only
  exact below_evolves hy "y" 0 false

theorem Query.free_counterexample_subset {asserts : Trace} {query : Predicate} {names : List (String × Nat)}
    (h : ∀ d ∈ query :: asserts, d.Made b ∧ d.cond.free ⊆ names) : free (.counterexample asserts query) ⊆ names := by
  obtain ⟨hquery, hasserts⟩ := List.forall_mem_cons.mp h
  intro x hx
  obtain ⟨p, hp, hx⟩ := Term.mem_freeConds.mp hx
  rcases List.mem_append.mp hp with hp | hp
  · obtain ⟨d, hd, rfl⟩ := List.mem_map.mp hp
    exact (hasserts d hd).2 ((hasserts d hd).1.expr.free hx)
  · rw [List.mem_singleton.mp hp] at hx
    exact hquery.2 (hquery.1.flip.expr.free hx)

/-- Backends that claim one model whatever they are asked. The first one is a solution. The second breaks an assert
that has no symbol in common with the query, and the third has a word of another width. -/
theorem returned_models_satisfy_of_claims :
    let r := Predicate.twoSymbols {}
    let q : Query := .counterexample r.1.1 r.1.2
    let answer := fun m => ((SolverOracle.oracle (Backend.claiming m) ()).ask q () r.2).1.1
    let right : Model := ⟨[("x", .ofInt 64 (-7)), ("y", .ofInt 64 (-1))]⟩
    let wrong : Model := ⟨[("x", .ofInt 64 3), ("y", .ofInt 64 (-1))]⟩
    let narrow : Model := ⟨[("x", .ofInt 64 (-7)), ("y", .ofInt 8 (-1))]⟩
    answer right = .ok (some right) ∧ (∀ ρ : Valuation, q.HoldsFor (ρ.override right)) ∧
      (∃ err, answer wrong = .error err) ∧ ∃ err, answer narrow = .error err := by
  have hb : Evolves {} (Predicate.twoSymbols {}).2 := Predicate.twoSymbols_evolves .refl
  have hpost := Predicate.twoSymbols_runs.post
  have hy : ("y", 64) ∈ Query.free (.counterexample (Predicate.twoSymbols {}).1.1 (Predicate.twoSymbols {}).1.2) := by
    decide +kernel
  dsimp only
  -- From here on the predicates are known by `hpost` only, and the models by their equations.
  generalize Predicate.twoSymbols {} = r at *
  generalize hright : (⟨[("x", .ofInt 64 (-7)), ("y", .ofInt 64 (-1))]⟩ : Model) = right
  generalize hwrong : (⟨[("x", .ofInt 64 3), ("y", .ofInt 64 (-1))]⟩ : Model) = wrong
  generalize hnarrow : (⟨[("x", .ofInt 64 (-7)), ("y", .ofInt 8 (-1))]⟩ : Model) = narrow
  obtain ⟨hmade, hholds⟩ := hpost
  have hq : Query.Made r.2 (.counterexample r.1.1 r.1.2) := fun d hd => (hmade d hd).1
  have hchecked := fun m => returned_models_satisfy (Backend.claiming m) () (Backend.claiming_builds m) hb _ hq
  simp only [SolverOracle.found_claiming] at hchecked
  have hfree := Query.free_counterexample_subset hmade
  have hcovers : right.Covers [("x", intWidth), ("y", intWidth)] ∧ wrong.Covers [("x", intWidth), ("y", intWidth)] := by
    subst hright hwrong
    constructor <;> exact List.forall_mem_cons.mpr ⟨⟨_, rfl, rfl⟩, List.forall_mem_singleton.mpr ⟨_, rfl, rfl⟩⟩
  have hsolution : Query.HoldsFor (Valuation.override (fun _ _ => 0) right) (.counterexample r.1.1 r.1.2) := by
    subst hright
    exact ⟨(hholds _).1.mpr (by decide), (hholds _).2.mpr (by decide)⟩
  have hfails : ¬Query.HoldsFor (Valuation.override (fun _ _ => 0) wrong) (.counterexample r.1.1 r.1.2) := by
    subst hwrong
    exact fun h => absurd ((hholds _).1.mp h.1).1 (by decide)
  rw [hq.holdsFor_iff_parts] at hfails
  push Not at hfails
  obtain ⟨p, hp, hfalse⟩ := hfails
  have hanswer := (hchecked right).2.2.1 trivial (hcovers.1.fits.mono hfree) ⟨_, hsolution⟩
  obtain ⟨-, -, -, hsatisfied⟩ := (hchecked right).1 right hanswer
  refine ⟨hanswer, (hsatisfied fun x hx => ?_).1, (hchecked wrong).2.1 trivial (Or.inr ?_),
    (hchecked narrow).2.1 trivial (Or.inl ?_)⟩
  · obtain ⟨w, hw, -⟩ := hcovers.1 x (hfree hx)
    rw [hw]
    rfl
  · exact ⟨p, hp, fun x hx => hcovers.2 x (hfree (Query.free_subset_of_mem_parts hp hx)), _,
      Bool.eq_false_iff.mpr hfalse⟩
  · subst hnarrow
    exact ⟨("y", 64), hy, .ofInt 8 (-1), rfl, by decide⟩

end Pathwise
