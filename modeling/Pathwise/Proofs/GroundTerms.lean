import Pathwise.Proofs.ConstraintSlices
import Pathwise.Proofs.OrderIndependence

/-! Terms without symbols. The constructors fold constants completely, so that something under every other node is no
constant and, going down, there is a symbol. So the list of a term's symbols is empty exactly if the term is a constant.
A solver finds the constraints that matter to a term by their symbols; the ones that it cannot find this way are
constants, and since it keeps no constant truths they are the constant false, which makes every slice false. -/

namespace Pathwise

open Builder

variable {b : Builder} {k : Ty}

/-! ### Constants have no symbols -/

theorem Term.free_eq_nil_of_isConst {t : Term k} (h : t.isConst = true) : t.free = [] := by
  cases t with
  | const i c => rfl
  | truth i v => rfl
  | _ => cases h

/-- A held term without symbols is a constant, and the other way round. -/
theorem Builder.Consistent.symbols_eq_nil_iff (hb : b.Consistent) {t : Term k} (ht : b.Holds t) :
    t.symbols = [] ↔ t.isConst = true := by
  constructor
  · intro hnil
    by_contra hnot
    obtain ⟨x, hx⟩ := List.exists_mem_of_ne_nil _ (hb.free_ne_nil ht (Bool.not_eq_true _ ▸ hnot))
    obtain ⟨y, hy, -⟩ := Term.exists_mem_symbols hb ht hx
    rw [hnil] at hy
    exact List.not_mem_nil hy
  · intro hconst
    refine List.eq_nil_iff_forall_not_mem.mpr fun y hy => ?_
    have hfree := (Term.held_of_mem_symbols hb ht hy).2
    rw [Term.free_eq_nil_of_isConst hconst] at hfree
    exact List.not_mem_nil hfree

/-! ### Constraints without symbols -/

/-- A constant that decides a connective decides every junction that it goes into. -/
theorem Build.truth?_join {op : Connective} {p q : Cond} (hb : b.Consistent) (hq : q.truth? = some (!op.unit)) :
    (join op p q b).1.truth? = some (!op.unit) := by
  have hne : (!op.unit) ≠ op.unit := Bool.not_ne_self _
  unfold join
  rw [hq]
  cases p.truth? with
  | some v =>
      dsimp only
      split_ifs
      · exact hq
      · exact truth?_truth hb (!op.unit)
  | none =>
      dsimp only
      rw [if_neg hne]
      exact truth?_truth hb (!op.unit)

namespace Solver

variable {σ : Type} {s : Solver σ} {p : Cond}

/-- Besides the constant false nothing is left of a slice. -/
theorem truth?_slice (hb : b.Consistent) (hs : s.Indexed b) (hrefuted : s.refuted = true) (t : Term k) :
    (s.slice t b).1.truth? = some false := by
  have hrelated : ∀ d ∈ s.related t, b.Holds d := fun d hd => hs.held d (mem_related.mp hd).1
  have hall := Request.all_runs hb hrelated
  have hfalse := Build.truth_runs hall.consistent false []
  have hvalue := Build.truth?_truth hall.consistent false
  unfold slice
  rw [Build.bind_apply, Build.bind_apply,
    any_id_eq_refuted hfalse.consistent (hs.mono (hall.grows.trans hfalse.grows)) hfalse.post.1.held hvalue,
    if_pos hrefuted]
  exact Build.truth?_join hfalse.consistent hvalue

/-- A constraint without symbols is related to no term. -/
theorem not_mem_related (hb : b.Consistent) (hs : s.Indexed b) (hp : p.symbols = []) (t : Term k) :
    p ∉ s.related t := by
  intro hrelated
  obtain ⟨i, hi, -⟩ := exists_reached_of_related hb hs hrelated
  rw [hp] at hi
  exact List.not_mem_nil hi

/-- A constraint with symbols is related to itself. -/
theorem mem_related_self (hs : s.Indexed b) (hp : p ∈ s.constraints) (hsymbols : p.symbols ≠ []) :
    p ∈ s.related p := by
  obtain ⟨y, hy⟩ := List.exists_mem_of_ne_nil _ hsymbols
  have hi : y.id ∈ p.symbols.map (·.id) := List.mem_map_of_mem hy
  exact mem_related_of_reached hs hp hi ((SymbolIndex.subset_search _ _ _).2 hi)

end Solver

/-- In every builder that can come about, exactly the constants have no symbols. Of all conditions that were added to
a solver, one that has symbols is in the slice for itself. One that has none is in no slice; it is constantly true, and
the solver did not keep it, or it is constantly false, and every slice is constantly false as well. -/
theorem ground_terms_are_constant {scatter : List Nat → Nat} {b : Builder} (hb : Evolves { scatter } b) :
    (∀ (k : Ty) (t : Term k), b.Holds t → (t.symbols = [] ↔ t.isConst = true)) ∧
    ∀ (σ : Type) (B : Backend σ) (s : Solver σ) (ps : List Cond), s.History B b ps → ∀ p ∈ ps,
      (p.symbols ≠ [] → p ∈ s.related p) ∧
      (p.symbols = [] → (∀ (k : Ty) (t : Term k), p ∉ s.related t) ∧
        (p.truth? = some true ∧ p ∉ s.constraints ∨
          p.truth? = some false ∧ p ∈ s.constraints ∧
            ∀ (k : Ty) (t : Term k), (s.slice t b).1.truth? = some false)) := by
  have hb := hb.consistent
  refine ⟨fun k t ht => hb.symbols_eq_nil_iff ht, fun σ B s ps h p hp => ?_⟩
  have hkeeps := h.keeps
  have hiff := hb.symbols_eq_nil_iff (hkeeps.held p hp)
  refine ⟨fun hsymbols => ?_, fun hnil => ⟨fun k t => Solver.not_mem_related hb hkeeps.indexed hnil t, ?_⟩⟩
  · have hconst : p.truth? ≠ some true := by
      rw [Term.truth?_eq_none_iff.mpr (Bool.not_eq_true _ ▸ mt hiff.mpr hsymbols)]
      exact (Option.some_ne_none _).symm
    exact Solver.mem_related_self hkeeps.indexed ((hkeeps.mem_iff p).mpr ⟨hp, hconst⟩) hsymbols
  · cases hv : p.truth? with
    | none =>
        have hconst := hiff.mp hnil
        rw [Term.truth?_eq_none_iff.mp hv] at hconst
        cases hconst
    | some v =>
        cases v with
        | true => exact Or.inl ⟨rfl, fun hmem => ((hkeeps.mem_iff p).mp hmem).2 hv⟩
        | false =>
            have hrefuted := hkeeps.refuted_iff.mpr ⟨p, hp, hv⟩
            have hmem := (hkeeps.mem_iff p).mpr ⟨hp, by rw [hv]; simp⟩
            exact Or.inr ⟨rfl, hmem, fun k t => Solver.truth?_slice hb hkeeps.indexed hrefuted t⟩

/-- A comparison and the constant false, in a builder whose fingerprints all collide. -/
theorem ground_terms_are_constant_of_collisions :
    let B : Backend Unit := ⟨fun _ _ => pure (.unknown, ()), fun _ => none, fun _ _ _ _ => pure [], id⟩
    let x : Term .word := .symbol 1 "x" 8
    let y : Term .word := .symbol 2 "y" 8
    let p : Cond := .compare 3 .slt x y
    let q : Cond := .truth 4 false
    let b₁ := ((Request.compare .slt x y).run twoSymbols).2
    let b := ((Request.truth false).run b₁).2
    let s := (({ backend := () } : Solver Unit).add q).add p
    Evolves { scatter := fun _ => 0 } b ∧ s.History B b [p, q] ∧ b.Holds p ∧ b.Holds q ∧
      p.symbols ≠ [] ∧ p ∈ s.related p ∧ q.symbols = [] ∧ q ∈ s.constraints ∧ q ∉ s.related x ∧
      (s.slice x b).1.truth? = some false := by
  intro B x y p q b₁ b s
  obtain ⟨h₀, hx₀, hy₀⟩ := twoSymbols_spec
  have h₁ : Evolves { scatter := fun _ => 0 } b₁ := h₀.request (.compare .slt x y) ⟨hx₀, hy₀⟩
  have hp₁ : b₁.Holds p := Request.holds_of_run h₀.consistent ⟨hx₀, hy₀⟩ rfl rfl
  have hb : Evolves { scatter := fun _ => 0 } b := h₁.request (.truth false) trivial
  have hp : b.Holds p := hp₁.mono (Request.runs h₁.consistent (.truth false) trivial).grows
  have hq : b.Holds q := Request.holds_of_run h₁.consistent trivial trivial rfl
  have h : s.History B b [p, q] := ((Solver.History.new hb ()).add hq).add hp
  obtain ⟨hground, hsolver⟩ := ground_terms_are_constant hb
  have hpsymbols : p.symbols ≠ [] := fun hnil => Bool.false_ne_true ((hground .bool p hp).mp hnil)
  have hqsymbols : q.symbols = [] := (hground .bool q hq).mpr rfl
  have hself := (hsolver Unit B s [p, q] h p List.mem_cons_self).1 hpsymbols
  obtain ⟨hnone, hq'⟩ := (hsolver Unit B s [p, q] h q (by simp)).2 hqsymbols
  rcases hq' with ⟨htrue, -⟩ | ⟨-, hmem, hslice⟩
  · cases htrue
  · exact ⟨hb, h, hp, hq, hpsymbols, hself, hqsymbols, hmem, hnone .word x, hslice .word x⟩

end Pathwise
