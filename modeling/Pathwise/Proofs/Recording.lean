import Pathwise.Proofs.Tracking
import Pathwise.Symbolic.Path

/-! What runs record. A recorded predicate has a held condition that is no constant, and its negation; the
predicates of a run hold under the valuation that the run's values agree with, and the formula of a trace
holds under a valuation exactly if all its predicates do.

While a run is going on only its builder and its path change. `World.running` is the world with these two
replaced, and `SymBool.record` is what a branch adds to the trace as a computation over the builder. -/

namespace Pathwise

open Builder

variable {ρ : Valuation} {names : List (String × Nat)} {p : Nat} {b c : Builder}

/-! ### Predicates -/

namespace Predicate

/-- The predicate is made from a held condition that is no constant, and carries its negation. -/
structure Formed (b : Builder) (names : List (String × Nat)) (d : Predicate) : Prop where
  held : b.Holds d.cond
  proper : d.cond.isConst = false
  free : d.cond.free ⊆ names
  negation : b.MeansCond d.negation (fun ρ => !d.cond.holds ρ) names
  negated : ∀ c : Builder, c.Consistent → b ≤ c → (Build.boolNot d.cond c).1 = d.negation

/-- Under the valuation the decision is the one that was taken. -/
def HoldsFor (ρ : Valuation) (d : Predicate) : Prop := d.cond.holds ρ = d.taken

theorem flip_ne (d : Predicate) : d.flip ≠ d := fun h => Bool.not_ne_self d.taken (congrArg taken h)

theorem HoldsFor.not_flip {d : Predicate} (h : d.HoldsFor ρ) : ¬d.flip.HoldsFor ρ := by
  unfold HoldsFor at h ⊢
  change d.cond.holds ρ ≠ !d.taken
  rw [h]
  exact (Bool.not_ne_self d.taken).symm

theorem Formed.mono (h : b ≤ c) {d : Predicate} (hd : d.Formed b names) : d.Formed c names :=
  ⟨hd.held.mono h, hd.proper, hd.free, hd.negation.mono h, fun e he hle => hd.negated e he (h.trans hle)⟩

theorem Formed.flip {d : Predicate} (hd : d.Formed b names) : d.flip.Formed b names :=
  ⟨hd.held, hd.proper, hd.free, hd.negation, hd.negated⟩

/-- The condition that held, as a condition of the predicate. -/
theorem Formed.expr {d : Predicate} (hd : d.Formed b names) :
    b.MeansCond d.expr (fun ρ => d.cond.holds ρ == d.taken) names := by
  unfold Predicate.expr
  split_ifs with htaken
  · exact ⟨hd.held, fun ρ => by rw [htaken, beq_true], hd.free⟩
  · rw [Bool.not_eq_true] at htaken
    exact hd.negation.congr (fun ρ => by rw [htaken, beq_false]) (List.Subset.refl _)

theorem Formed.eq_of_key (hb : b.Consistent) {names' : List (String × Nat)} {d d' : Predicate}
    (hd : d.Formed b names) (hd' : d'.Formed b names') (h : d.key = d'.key) : d = d' := by
  obtain ⟨hid, htaken⟩ := PredicateKey.mk.injEq .. ▸ h
  have hcond : d.cond = d'.cond := hb.eq_of_id hd.held hd'.held hid
  have hnegation : d.negation = d'.negation := by
    rw [← hd.negated b hb le_rfl, ← hd'.negated b hb le_rfl, hcond]
  cases d
  cases d'
  subst hcond htaken hnegation
  rfl

theorem make_runs (hb : b.Consistent) {q : Cond} {v : Bool} (hq : b.Knows (k := .bool) ρ names q v)
    (hproper : q.isConst = false) :
    Build.Runs (make q v) b fun d c =>
      d.cond = q ∧ d.taken = v ∧ d.Formed c names ∧ d.HoldsFor ρ := by
  refine Build.Runs.bind (Build.boolNot_runs hb hq.held).settle fun n c hle hc hn => Build.Runs.pure hc ?_
  obtain ⟨hn, hagain⟩ := hn
  exact ⟨rfl, rfl, ⟨hq.held.mono hle, hproper, hq.free, hn.congr (fun _ => rfl) hq.free,
    fun e he hle => (hagain e he hle).1⟩, hq.gives⟩

end Predicate

namespace Trace

/-- Every predicate of the trace is formed. -/
def Formed (b : Builder) (names : List (String × Nat)) (t : Trace) : Prop := ∀ d ∈ t, d.Formed b names

/-- Every decision of the trace is the one that the valuation makes. -/
def HoldsFor (ρ : Valuation) (t : Trace) : Prop := ∀ d ∈ t, d.HoldsFor ρ

theorem Formed.mono (h : b ≤ c) {t : Trace} (ht : t.Formed b names) : t.Formed c names :=
  fun d hd => (ht d hd).mono h

/-- Within one builder a trace is known by its keys. -/
theorem eq_of_keys (hb : b.Consistent) {names' : List (String × Nat)} {t u : Trace} (ht : t.Formed b names)
    (hu : u.Formed b names') (h : t.keys = u.keys) : t = u := by
  induction t generalizing u with
  | nil => exact (List.map_eq_nil_iff.mp h.symm).symm
  | cons d t ih =>
      cases u with
      | nil => cases h
      | cons d' u =>
          obtain ⟨hhead, htail⟩ := List.cons.inj h
          rw [Formed, List.forall_mem_cons] at ht hu
          rw [ih ht.2 hu.2 htail, ht.1.eq_of_key hb hu.1 hhead]

theorem formula_eq_all (t : Trace) : t.formula = Build.all (t.map Predicate.expr) := by
  unfold formula Build.all
  simp only [List.foldlM_map]

/-- The formula of a trace holds exactly if all its predicates do. -/
theorem formula_runs (hb : b.Consistent) {t : Trace} (ht : t.Formed b names) :
    Build.Runs t.formula b fun q c => c.MeansCond q (fun ρ => t.all fun d => d.cond.holds ρ == d.taken) names := by
  rw [formula_eq_all]
  refine (Build.all_runs hb (List.forall_mem_map.mpr fun d hd => ⟨(ht d hd).expr.held, (ht d hd).expr.free⟩)).imp
    fun q c _ _ hq => hq.congr (fun ρ => ?_) (List.Subset.refl _)
  rw [Bool.eq_iff_iff, Connective.total_iff_and, List.all_eq_true, List.map_map, List.forall_mem_map]
  refine forall₂_congr fun d hd => ?_
  rw [Function.comp_apply, (ht d hd).expr.holds]

end Trace

/-! ### Branches -/

/-- What a branch on the value adds to the trace. -/
def SymBool.record (x : SymBool) : Build Trace :=
  match x.origin with
  | none => pure []
  | some o => do return [← Predicate.make o.term x.value]

theorem SymBool.record_runs (hb : b.Consistent) {x : SymBool} (hx : x.Sound b ρ names p) :
    Build.Runs x.record b fun t c => t.Formed c names ∧ t.HoldsFor ρ := by
  unfold record
  cases ho : x.origin with
  | none => exact Build.Runs.pure hb ⟨nofun, nofun⟩
  | some o =>
      obtain ⟨-, hproper, hknows⟩ := hx o ho
      refine Build.Runs.bind (Predicate.make_runs hb hknows hproper) fun d c _ hc hd => Build.Runs.pure hc ?_
      exact ⟨List.forall_mem_singleton.mpr hd.2.2.1, List.forall_mem_singleton.mpr hd.2.2.2⟩

namespace World

/-- The world while a run on the path is going on. -/
def running (w : World) (p : Nat) (b : Builder) (t : Trace) : World :=
  { w with builder := b }.setPath p { active := true, trace := t }

variable {w : World} {t : Trace}

theorem path_setPath_self (hp : p < w.paths.size) (q : Path) : (w.setPath p q).path p = q := by
  unfold setPath path
  simp [hp]

theorem path_setPath_of_ne {n : Nat} (h : n ≠ p) (q : Path) : (w.setPath n q).path p = w.path p := by
  unfold setPath path
  simp [h]

theorem size_setPath (n : Nat) (q : Path) : (w.setPath n q).paths.size = w.paths.size := Array.size_setIfInBounds

/-- Paths that were never made are not active. -/
theorem lt_size_of_active (h : (w.path p).active = true) : p < w.paths.size := by
  by_contra hp
  rw [path, Array.getElem?_eq_none (Nat.le_of_not_lt hp)] at h
  cases h

theorem path_running (hp : p < w.paths.size) : (w.running p b t).path p = { active := true, trace := t } :=
  path_setPath_self (w := { w with builder := b }) hp _

theorem setPath_self (hp : p < w.paths.size) : w.setPath p (w.path p) = w := by
  have hsame : w.paths.setIfInBounds p (w.path p) = w.paths := by
    apply Array.ext_getElem?
    intro i
    rw [Array.getElem?_setIfInBounds]
    split_ifs with hi
    · rw [← hi, path, Array.getElem?_eq_getElem hp]
      rfl
    · rfl
  unfold setPath
  rw [hsame]

theorem build_running {α : Type} (act : Build α) :
    (w.running p b t).build act = ((act b).1, w.running p (act b).2 t) := rfl

theorem setPath_running (q : Path) : (w.running p b t).setPath p q = { w with builder := b }.setPath p q := by
  unfold running setPath
  simp

end World

/-- A branch goes as the value says and adds its record to the trace. -/
theorem Exec.branch_running {w : World} {t : Trace} (hp : p < w.paths.size) {x : SymBool}
    (hx : Tracked.OnPath (k := .bool) p x) :
    Exec.branch x (w.running p b t) = (.ok x.value, w.running p (x.record b).2 (t ++ (x.record b).1)) := by
  unfold Exec.branch SymBool.record
  cases ho : x.origin with
  | none =>
      change (_, w.running p b t) = (_, w.running p b (t ++ []))
      rw [List.append_nil]
  | some o =>
      obtain rfl := hx o ho
      dsimp only
      rw [World.path_running hp, if_pos rfl, World.build_running]
      dsimp only
      rw [World.setPath_running]
      rfl

theorem Exec.build_running {α : Type} {w : World} {t : Trace} (act : Build α) :
    Exec.build act (w.running p b t) = (.ok (act b).1, w.running p (act b).2 t) := rfl

end Pathwise
