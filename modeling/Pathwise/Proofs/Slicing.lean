import Pathwise.Proofs.Constructors
import Pathwise.Proofs.FreeSymbols
import Pathwise.Solver

/-! Slices of constraints. A solver decides a term together with the constraints that are related to it. It
finds them through an index, which links every two symbols of a constraint when the constraint is added, and
lists it under each of them; `SymbolIndex.Describes` says that the index is that of the constraints, in whatever
order they came. Following the links from the symbols of the term reaches a closed set of symbols: a constraint
that mentions one of them mentions no others. So a constraint that is not related to the term has no symbol in
common with it or with the related ones, and what the term and the related constraints need can be changed
without touching the others. -/

namespace Pathwise

open Builder

/-! ### The index -/

namespace SymbolIndex

variable {x : SymbolIndex} {i j n m : Nat} {symbols visited queue : List Nat}

@[simp] theorem linked_mention (n i : Nat) : (x.mention n i).linked = x.linked := rfl

@[simp] theorem mentioning_link (i j : Nat) : (x.link i j).mentioning = x.mentioning := rfl

theorem mem_mentioning_mention {i' : Nat} :
    m ∈ (x.mention n i).mentioning i' ↔ m ∈ x.mentioning i' ∨ i' = i ∧ m = n := by
  simp only [mention, mentioning, Std.TreeMap.getD_insert, Nat.compare_eq_eq]
  by_cases h : i = i'
  · simp [h, or_comm]
  · simp [h, Ne.symm h]

theorem mem_linked_point {i' j' : Nat} : j' ∈ (x.point i j).linked i' ↔ j' ∈ x.linked i' ∨ i' = i ∧ j' = j := by
  simp only [point, linked, Std.TreeMap.getD_insert, Nat.compare_eq_eq]
  by_cases h : i = i'
  · simp [h, or_comm]
  · simp [h, Ne.symm h]

theorem mentioning_links (i : Nat) (symbols : List Nat) (x : SymbolIndex) :
    (symbols.foldl (link · i) x).mentioning = x.mentioning := by
  induction symbols generalizing x with
  | nil => rfl
  | cons j symbols ih => rw [List.foldl_cons, ih, mentioning_link]

theorem mem_linked_links {i' j' : Nat} : j' ∈ (symbols.foldl (link · i) x).linked i' ↔
    j' ∈ x.linked i' ∨ i' = i ∧ j' ∈ symbols ∨ i' ∈ symbols ∧ j' = i := by
  induction symbols generalizing x with
  | nil => simp
  | cons j symbols ih =>
      rw [List.foldl_cons, ih, link, mem_linked_point, mem_linked_point, List.mem_cons, List.mem_cons]
      tauto

/-- Entering a constraint lists it under each of its symbols. -/
theorem mem_mentioning_enter : m ∈ (x.enter n symbols).mentioning i ↔ m ∈ x.mentioning i ∨ m = n ∧ i ∈ symbols := by
  induction symbols generalizing x with
  | nil => simp [enter]
  | cons j symbols ih =>
      rw [enter, ih, mentioning_links, mem_mentioning_mention, List.mem_cons]
      tauto

/-- Entering a constraint links every two of its symbols. -/
theorem mem_linked_enter (hij : i ≠ j) :
    j ∈ (x.enter n symbols).linked i ↔ j ∈ x.linked i ∨ i ∈ symbols ∧ j ∈ symbols := by
  induction symbols generalizing x with
  | nil => simp [enter]
  | cons k symbols ih =>
      rw [enter, ih, mem_linked_links, linked_mention, List.mem_cons, List.mem_cons]
      constructor
      · rintro ((h | ⟨hi, hj⟩ | ⟨hi, hj⟩) | ⟨hi, hj⟩)
        · exact Or.inl h
        · exact Or.inr ⟨Or.inl hi, Or.inr hj⟩
        · exact Or.inr ⟨Or.inr hi, Or.inl hj⟩
        · exact Or.inr ⟨Or.inr hi, Or.inr hj⟩
      · rintro (h | ⟨rfl | hi, rfl | hj⟩)
        · exact Or.inl (Or.inl h)
        · exact absurd rfl hij
        · exact Or.inl (Or.inr (Or.inl ⟨rfl, hj⟩))
        · exact Or.inl (Or.inr (Or.inr ⟨hi, rfl⟩))
        · exact Or.inr ⟨hi, hj⟩

/-- The index is that of the constraints: it links the symbols that occur together in one of them, and lists
each of them under its symbols. -/
structure Describes (x : SymbolIndex) (ps : List Cond) : Prop where
  linked : ∀ {i j : Nat}, i ≠ j →
    (j ∈ x.linked i ↔ ∃ p ∈ ps, i ∈ p.symbols.map (·.id) ∧ j ∈ p.symbols.map (·.id))
  mentioning : ∀ {i n : Nat}, n ∈ x.mentioning i ↔ ∃ p ∈ ps, p.id = n ∧ i ∈ p.symbols.map (·.id)

theorem describes_nil : ({} : SymbolIndex).Describes [] where
  linked _ := by simp [SymbolIndex.linked]
  mentioning := by simp [SymbolIndex.mentioning]

theorem Describes.enter {ps : List Cond} (h : x.Describes ps) (p : Cond) :
    (x.enter p.id (p.symbols.map (·.id))).Describes (ps ++ [p]) where
  linked hij := by
    rw [mem_linked_enter hij, h.linked hij]
    simp only [List.mem_append, List.mem_singleton, or_and_right, exists_or, exists_eq_left]
  mentioning := by
    intro i n
    rw [mem_mentioning_enter, h.mentioning, eq_comm]
    simp only [List.mem_append, List.mem_singleton, or_and_right, exists_or, exists_eq_left]

/-! ### Following links -/

theorem subset_search (x : SymbolIndex) (visited queue : List Nat) :
    visited ⊆ x.search visited queue ∧ queue ⊆ x.search visited queue := by
  fun_induction search x visited queue with
  | case1 visited => exact ⟨List.Subset.refl _, List.nil_subset _⟩
  | case2 visited i queue hi ih => exact ⟨ih.1, List.cons_subset.mpr ⟨ih.1 hi, ih.2⟩⟩
  | case3 visited i queue hi ih =>
      obtain ⟨hvisited, hqueue⟩ := ih
      rw [List.cons_subset] at hvisited
      rw [List.append_subset] at hqueue
      exact ⟨hvisited.2, List.cons_subset.mpr ⟨hvisited.1, hqueue.2⟩⟩

/-- What the search adds is closed under links. -/
theorem linked_subset_search (hi : i ∈ x.search visited queue) :
    i ∈ visited ∨ x.linked i ⊆ x.search visited queue := by
  fun_induction search x visited queue with
  | case1 visited => exact Or.inl hi
  | case2 visited j queue hj ih => exact ih hi
  | case3 visited j queue hj ih =>
      rcases ih hi with hmem | hsub
      · rcases List.mem_cons.mp hmem with rfl | hmem
        · exact Or.inr (List.append_subset.mp (x.subset_search (i :: visited) _).2).1
        · exact Or.inl hmem
      · exact Or.inr hsub

/-- What holds of the symbols at hand and is passed on by links holds of all that are found. -/
theorem forall_mem_search {P : Nat → Prop} (hstep : ∀ i j, P i → j ∈ x.linked i → P j)
    (hvisited : ∀ i ∈ visited, P i) (hqueue : ∀ i ∈ queue, P i) : ∀ i ∈ x.search visited queue, P i := by
  fun_induction search x visited queue with
  | case1 visited => exact hvisited
  | case2 visited j queue hj ih => exact ih hvisited (List.forall_mem_cons.mp hqueue).2
  | case3 visited j queue hj ih =>
      rw [List.forall_mem_cons] at hqueue
      refine ih (List.forall_mem_cons.mpr ⟨hqueue.1, hvisited⟩) fun k hk => ?_
      rcases List.mem_append.mp hk with hk | hk
      · exact hstep j k hqueue.1 hk
      · exact hqueue.2 k hk

end SymbolIndex

namespace Solver

/-! ### Constraints and their meaning -/

section Slices

variable {σ : Type} {b c : Builder} {s : Solver σ} {ρ τ υ : Valuation} {p : Cond} {k : Ty} {t : Term k}

/-- Every constraint is held, and the index is that of the constraints. -/
structure Indexed (b : Builder) (s : Solver σ) : Prop where
  held : ∀ d ∈ s.constraints, b.Holds d
  index : s.index.Describes s.constraints

/-- Every constraint holds under the valuation. -/
def HoldsFor (ρ : Valuation) (s : Solver σ) : Prop := ∀ d ∈ s.constraints, d.holds ρ = true

/-- One of the constraints is the constant false. -/
def refuted (s : Solver σ) : Bool := s.constraints.any (·.truth? == some false)

/-- The symbols of the term and of the constraints related to it. -/
def cone (s : Solver σ) (t : Term k) : List (String × Nat) :=
  t.free ++ Term.freeConds (s.related t)

/-- The symbols that links lead to from those of the term. -/
def reached (s : Solver σ) (t : Term k) : List Nat := s.index.search [] (t.symbols.map (·.id))

theorem Indexed.mono (h : b ≤ c) (hs : s.Indexed b) : s.Indexed c := ⟨fun d hd => (hs.held d hd).mono h, hs.index⟩

theorem indexed_fresh (backend : σ) : ({ backend } : Solver σ).Indexed b :=
  ⟨fun _ hd => absurd hd List.not_mem_nil, SymbolIndex.describes_nil⟩

theorem Indexed.add (hs : s.Indexed b) (hp : b.Holds p) : (s.add p).Indexed b := by
  unfold Solver.add
  split_ifs
  · exact hs
  · refine ⟨fun d hd => ?_, hs.index.enter p⟩
    rcases List.mem_append.mp hd with hd | hd
    · exact hs.held d hd
    · obtain rfl := List.mem_singleton.mp hd
      exact hp

/-- Adding a constraint adds its meaning, also where the constraint was there already or is constantly true. -/
theorem holdsFor_add (hb : b.Consistent) (hs : s.Indexed b) (hp : b.Holds p) :
    (s.add p).HoldsFor ρ ↔ s.HoldsFor ρ ∧ p.holds ρ = true := by
  unfold Solver.add
  split_ifs with hskip
  · refine ⟨fun h => ⟨h, ?_⟩, And.left⟩
    rcases hskip with hmem | htrue
    · obtain ⟨d, hd, hid⟩ := List.any_eq_true.mp hmem
      rw [← hb.eq_of_id (hs.held d hd) hp (beq_iff_eq.mp hid)]
      exact h d hd
    · exact Term.holds_of_truth? htrue ρ
  · simp [HoldsFor, or_imp, forall_and]

theorem addAll_spec (hb : b.Consistent) {ps : List Cond} (hs : s.Indexed b) (hps : ∀ p ∈ ps, b.Holds p) :
    (ps.foldl add s).Indexed b ∧
      ∀ ρ, (ps.foldl add s).HoldsFor ρ ↔ s.HoldsFor ρ ∧ ∀ p ∈ ps, p.holds ρ = true := by
  induction ps generalizing s with
  | nil => exact ⟨hs, fun ρ => by simp⟩
  | cons p ps ih =>
      rw [List.forall_mem_cons] at hps
      obtain ⟨hindexed, hholds⟩ := ih (hs.add hps.1) hps.2
      refine ⟨hindexed, fun ρ => ?_⟩
      rw [List.foldl_cons, hholds, holdsFor_add hb hs hps.1, List.forall_mem_cons, and_assoc]

/-- What is added are the conditions. -/
theorem mem_addAll {ps : List Cond} {d : Cond} (hd : d ∈ (ps.foldl add s).constraints) :
    d ∈ s.constraints ∨ d ∈ ps := by
  induction ps generalizing s with
  | nil => exact Or.inl hd
  | cons p ps ih =>
      rw [List.foldl_cons] at hd
      rcases ih hd with hd | hd
      · unfold Solver.add at hd
        split_ifs at hd
        · exact Or.inl hd
        · rcases List.mem_append.mp hd with hd | hd
          · exact Or.inl hd
          · obtain rfl := List.mem_singleton.mp hd
            exact Or.inr List.mem_cons_self
      · exact Or.inr (List.mem_cons_of_mem _ hd)

theorem backend_addAll (s : Solver σ) (ps : List Cond) : (ps.foldl add s).backend = s.backend := by
  induction ps generalizing s with
  | nil => rfl
  | cons p ps ih =>
      rw [List.foldl_cons, ih]
      unfold Solver.add
      split_ifs <;> rfl

theorem refuted_eq_false (h : s.HoldsFor ρ) : s.refuted = false := by
  rw [refuted, List.any_eq_false]
  intro d hd hfalse
  have hnot := Term.holds_of_truth? (beq_iff_eq.mp hfalse) ρ
  rw [h d hd] at hnot
  cases hnot

theorem mem_related {d : Cond} : d ∈ s.related t ↔
    d ∈ s.constraints ∧ ∃ i ∈ s.reached t, d.id ∈ s.index.mentioning i := by
  rw [related, List.mem_filter, List.contains_iff_mem, List.mem_flatMap]
  rfl

/-- A constraint that mentions one of the symbols reached is related, as it is listed under it. -/
theorem mem_related_of_reached (hs : s.Indexed b) {d : Cond} (hd : d ∈ s.constraints) {i : Nat}
    (hi : i ∈ d.symbols.map (·.id)) (hreached : i ∈ s.reached t) : d ∈ s.related t :=
  mem_related.mpr ⟨hd, i, hreached, hs.index.mentioning.mpr ⟨d, hd, rfl, hi⟩⟩

/-- The constraints that are listed under a symbol mention it, as a number belongs to one condition. -/
theorem exists_reached_of_related (hb : b.Consistent) (hs : s.Indexed b) {d : Cond} (hd : d ∈ s.related t) :
    ∃ i ∈ d.symbols.map (·.id), i ∈ s.reached t := by
  obtain ⟨hmem, i, hreached, hlisted⟩ := mem_related.mp hd
  obtain ⟨e, he, hid, hi⟩ := hs.index.mentioning.mp hlisted
  cases hb.eq_of_id (hs.held e he) (hs.held d hmem) hid
  exact ⟨i, hi, hreached⟩

/-- A constraint that mentions one of the symbols reached mentions no others. -/
theorem symbols_subset_reached (hs : s.Indexed b) {d : Cond} (hd : d ∈ s.constraints) {i : Nat}
    (hi : i ∈ d.symbols.map (·.id)) (hreached : i ∈ s.reached t) : d.symbols.map (·.id) ⊆ s.reached t := by
  intro j hj
  by_cases hij : i = j
  · exact hij ▸ hreached
  · rcases SymbolIndex.linked_subset_search hreached with hnone | hsub
    · cases hnone
    · exact hsub ((hs.index.linked hij).mpr ⟨d, hd, hi, hj⟩)

/-- A constraint that is not related to the term shares no symbol with it or with the related ones. -/
theorem apart_of_not_related (hb : b.Consistent) (hs : s.Indexed b) (ht : b.Holds t) {d : Cond}
    (hd : d ∈ s.constraints) (hnot : d ∉ s.related t) : d.free.Disjoint (s.cone t) := by
  intro x hx hcone
  obtain ⟨y, hy, rfl⟩ := Term.exists_mem_symbols hb (hs.held d hd) hx
  have hheld := (Term.held_of_mem_symbols hb (hs.held d hd) hy).1
  have hmem : y.id ∈ s.reached t := by
    rcases List.mem_append.mp hcone with hfree | hfree
    · exact (SymbolIndex.subset_search _ _ _).2 ((Term.mem_symbol_ids hb ht).mpr ⟨y, rfl, hheld, hfree⟩)
    · obtain ⟨e, hrelated, hfree⟩ := Term.mem_freeConds.mp hfree
      have he := (mem_related.mp hrelated).1
      obtain ⟨i, hi, hreached⟩ := exists_reached_of_related hb hs hrelated
      exact symbols_subset_reached hs he hi hreached
        ((Term.mem_symbol_ids hb (hs.held e he)).mpr ⟨y, rfl, hheld, hfree⟩)
  exact hnot (mem_related_of_reached hs hd (List.mem_map_of_mem hy) hmem)

/-- A valuation that satisfies all constraints goes on satisfying them when it is changed, on the symbols that
matter to the term, to one that satisfies the related constraints. -/
theorem HoldsFor.change (hb : b.Consistent) (hs : s.Indexed b) (ht : b.Holds t) (hρ : s.HoldsFor ρ)
    (hτ : ∀ d ∈ s.related t, d.holds τ = true) (hin : υ.Agree τ (s.cone t))
    (hout : ∀ x, x ∉ s.cone t → υ x.1 x.2 = ρ x.1 x.2) : s.HoldsFor υ := by
  intro d hd
  by_cases hrelated : d ∈ s.related t
  · have hfree : d.free ⊆ s.cone t := fun x hx =>
      List.mem_append_right _ (Term.mem_freeConds.mpr ⟨d, hrelated, hx⟩)
    rw [Term.holds_congr hb (hs.held d hd) (hin.mono hfree)]
    exact hτ d hrelated
  · have hagree : υ.Agree ρ d.free := fun x hx =>
      hout x fun hcone => apart_of_not_related hb hs ht hd hrelated hx hcone
    rw [Term.holds_congr hb (hs.held d hd) hagree]
    exact hρ d hd

/-! ### Conjunctions -/

theorem conjunction_runs (hb : b.Consistent) (hs : s.Indexed b) :
    Build.Runs s.conjunction b fun r c =>
      c.MeansCond r (fun ρ => s.constraints.all (·.holds ρ)) (Term.freeConds s.constraints) :=
  Request.all_runs hb hs.held

/-- The constant false is found among held conditions by its number. -/
theorem any_id_eq_refuted (hb : b.Consistent) (hs : s.Indexed b) {q : Cond} (hq : b.Holds q)
    (hfalse : q.truth? = some false) : s.constraints.any (·.id == q.id) = s.refuted := by
  rw [refuted, Bool.eq_iff_iff, List.any_eq_true, List.any_eq_true]
  refine exists_congr fun d => and_congr_right fun hd => ?_
  rw [beq_iff_eq, beq_iff_eq]
  constructor
  · intro hid
    rw [hb.eq_of_id (hs.held d hd) hq hid, hfalse]
  · intro htruth
    have halike : d.alike q = true := by
      rw [Term.eq_truth_of_truth? htruth, Term.eq_truth_of_truth? hfalse]
      rfl
    rw [hb.shared (hs.held d hd) hq halike]

/-- The slice says what the related constraints say, or is false if one of the constraints is. -/
theorem slice_runs (hb : b.Consistent) (hs : s.Indexed b) (t : Term k) :
    Build.Runs (s.slice t) b fun r c =>
      c.MeansCond r (fun ρ => (s.related t).all (·.holds ρ) && !s.refuted)
        (Term.freeConds (s.related t)) := by
  unfold slice
  have hrelated : ∀ d ∈ s.related t, b.Holds d := fun d hd => hs.held d (mem_related.mp hd).1
  refine Build.Runs.bind (Request.all_runs hb hrelated) fun r c hle hc hr => ?_
  refine Build.Runs.bind (Build.truth_runs hc false []) fun q d hle' hd hq => ?_
  obtain ⟨hq, hconst⟩ := hq
  have htruth : q.truth? = some false := by
    rw [Term.truth?_of_isConst hconst fun _ _ => 0, hq.holds]
  rw [any_id_eq_refuted hd (hs.mono (hle.trans hle')) hq.held htruth]
  split_ifs with hrefuted
  · refine (Build.join_runs hd (hr.held.mono hle') hq.held .and).imp fun r' e _ _ hr' => hr'.congr (fun ρ => ?_) ?_
    · rw [hq.holds, hrefuted, Bool.not_true, Bool.and_false]
      exact Bool.and_false _
    · exact List.append_subset.mpr ⟨hr.free, List.Subset.trans hq.free (List.nil_subset _)⟩
  · refine Build.Runs.pure hd ((hr.mono hle').congr (fun ρ => ?_) (List.Subset.refl _))
    rw [Bool.not_eq_true] at hrefuted
    rw [hrefuted, Bool.not_false, Bool.and_true]

end Slices
end Solver
end Pathwise
