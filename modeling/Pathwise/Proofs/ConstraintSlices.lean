import Pathwise.Proofs.Slicing
import Pathwise.Proofs.Substitution

/-! What a slice leaves out. Whatever sequence of additions and copies a solver comes from, its slice for a term
is the conjunction of the added conditions that a chain of shared symbols connects to the term, and false if the
constant false was added. The other conditions have no symbol in common with the slice or the term. So if all
conditions can be satisfied together, the slice decides a query as well as all of them do, and an assignment for
the query and its slice, put over one for all conditions, is one for both. -/

namespace Pathwise

open Builder

/-! ### Chains -/

/-- The condition is one of `ps` and shares a symbol with the given ones, directly or through a chain of
conditions in `ps`. -/
inductive Chained (ps : List Cond) (names : List (String × Nat)) : Cond → Prop where
  | direct {p : Cond} (hp : p ∈ ps) {x : String × Nat} (hx : x ∈ p.free) (hnames : x ∈ names) : Chained ps names p
  | step {p q : Cond} (hq : Chained ps names q) (hp : p ∈ ps) {x : String × Nat} (hx : x ∈ p.free)
      (hshared : x ∈ q.free) : Chained ps names p

namespace Chained

variable {ps ps' : List Cond} {names : List (String × Nat)} {p : Cond}

theorem mem (h : Chained ps names p) : p ∈ ps := by
  cases h with
  | direct hp => exact hp
  | step _ hp => exact hp

/-- Conditions without symbols are in no chain. -/
theorem mono (hsub : ∀ p ∈ ps, p.free ≠ [] → p ∈ ps') (h : Chained ps names p) : Chained ps' names p := by
  induction h with
  | direct hp hx hnames => exact .direct (hsub _ hp (List.ne_nil_of_mem hx)) hx hnames
  | step _ hp hx hshared ih => exact .step ih (hsub _ hp (List.ne_nil_of_mem hx)) hx hshared

/-- A chain goes on through a further symbol of one of its conditions. -/
theorem of_mem {x : String × Nat} (hx : x ∈ names ∨ ∃ q, Chained ps names q ∧ x ∈ q.free) (hp : p ∈ ps)
    (hmem : x ∈ p.free) : Chained ps names p := by
  rcases hx with hx | ⟨q, hq, hx⟩
  · exact .direct hp hmem hx
  · exact .step hq hp hmem hx

end Chained

namespace Solver

variable {σ : Type} {B : Backend σ} {b : Builder} {s : Solver σ} {ps : List Cond} {k : Ty} {t : Term k} {d : Cond}

/-- The symbol of a number is held once. -/
theorem sort_eq_of_id (hb : b.Consistent) {y z : Symbol} (hy : b.Holds y.term) (hz : b.Holds z.term)
    (h : y.id = z.id) : y.sort = z.sort := by
  have hterm : y.term = z.term := hb.eq_of_id hy hz h
  obtain ⟨-, hname, hwidth⟩ := Term.symbol.inj hterm
  exact Prod.ext hname hwidth

/-- Every symbol reached is one of the term's or of a condition in a chain. -/
theorem chained_of_reached (hb : b.Consistent) (hs : s.Indexed b) (ht : b.Holds t) :
    ∀ i ∈ s.reached t, ∃ y : Symbol, y.id = i ∧ b.Holds y.term ∧
      (y.sort ∈ t.free ∨ ∃ q, Chained s.constraints t.free q ∧ y.sort ∈ q.free) := by
  refine SymbolIndex.forall_mem_search ?_ (List.forall_mem_nil _) fun i hi => ?_
  · rintro i j ⟨y, hid, hy, hchained⟩ hlinked
    by_cases hij : i = j
    · exact ⟨y, hid.trans hij, hy, hchained⟩
    · obtain ⟨p, hp, hi, hj⟩ := (hs.index.linked hij).mp hlinked
      have hheld := hs.held p hp
      obtain ⟨y', hid', hy', hfree⟩ := (Term.mem_symbol_ids hb hheld).mp hi
      obtain ⟨z, hz, hzheld, hzfree⟩ := (Term.mem_symbol_ids hb hheld).mp hj
      rw [sort_eq_of_id hb hy' hy (hid'.trans hid.symm)] at hfree
      exact ⟨z, hz, hzheld, Or.inr ⟨p, .of_mem hchained hp hfree, hzfree⟩⟩
  · obtain ⟨y, hid, hy, hfree⟩ := (Term.mem_symbol_ids hb ht).mp hi
    exact ⟨y, hid, hy, Or.inl hfree⟩

/-- The related constraints are those that a chain connects to the term. -/
theorem mem_related_iff (hb : b.Consistent) (hs : s.Indexed b) (ht : b.Holds t) :
    d ∈ s.related t ↔ Chained s.constraints t.free d := by
  constructor
  · intro hd
    have hmem := (mem_related.mp hd).1
    obtain ⟨i, hi, hreached⟩ := exists_reached_of_related hb hs hd
    obtain ⟨y, hid, hy, hchained⟩ := chained_of_reached hb hs ht i hreached
    obtain ⟨y', hid', hy', hfree⟩ := (Term.mem_symbol_ids hb (hs.held d hmem)).mp hi
    rw [sort_eq_of_id hb hy' hy (hid'.trans hid.symm)] at hfree
    exact .of_mem hchained hmem hfree
  · intro hd
    induction hd with
    | direct hp hx hnames =>
        by_contra hnot
        exact apart_of_not_related hb hs ht hp hnot hx (List.mem_append_left _ hnames)
    | step _ hp hx hshared ih =>
        by_contra hnot
        exact apart_of_not_related hb hs ht hp hnot hx
          (List.mem_append_right _ (Term.mem_freeConds.mpr ⟨_, ih, hshared⟩))

/-! ### Histories -/

/-- The solver comes from a new one by additions and copies, while its builder evolves; `ps` are all conditions
that were added. -/
inductive History (B : Backend σ) : Builder → Solver σ → List Cond → Prop where
  | new {scatter : List Nat → Nat} {b : Builder} (hb : Evolves { scatter } b) (backend : σ) :
      History B b { backend } []
  | evolve {b c : Builder} {s : Solver σ} {ps : List Cond} (h : History B b s ps) (hc : b.Evolves c) :
      History B c s ps
  | add {b : Builder} {s : Solver σ} {ps : List Cond} (h : History B b s ps) {p : Cond} (hp : b.Holds p) :
      History B b (s.add p) (p :: ps)
  | clone {b : Builder} {s : Solver σ} {ps : List Cond} (h : History B b s ps) : History B b (s.clone B) ps

/-- What a history leaves: the solver keeps what was added, each condition once, except constant truths. -/
structure Keeps (b : Builder) (s : Solver σ) (ps : List Cond) : Prop where
  consistent : b.Consistent
  indexed : s.Indexed b
  held : ∀ p ∈ ps, b.Holds p
  mem_iff : ∀ p, p ∈ s.constraints ↔ p ∈ ps ∧ p.truth? ≠ some true

theorem keeps_fresh (hb : b.Consistent) (backend : σ) : ({ backend } : Solver σ).Keeps b [] :=
  ⟨hb, indexed_fresh backend, List.forall_mem_nil _, by simp⟩

theorem Keeps.add (h : s.Keeps b ps) {p : Cond} (hp : b.Holds p) : (s.add p).Keeps b (p :: ps) := by
  refine ⟨h.consistent, h.indexed.add hp, List.forall_mem_cons.mpr ⟨hp, h.held⟩, fun q => ?_⟩
  unfold Solver.add
  split_ifs with hskip
  · have hold : p.truth? = some true ∨ p ∈ ps := by
      rcases hskip with hmem | htrue
      · obtain ⟨d, hd, hid⟩ := List.any_eq_true.mp hmem
        have heq : d = p := h.consistent.eq_of_id (h.indexed.held d hd) hp (beq_iff_eq.mp hid)
        exact Or.inr (heq ▸ ((h.mem_iff d).mp hd).1)
      · exact Or.inl htrue
    rw [h.mem_iff, List.mem_cons]
    constructor
    · exact fun hq => ⟨Or.inr hq.1, hq.2⟩
    · rintro ⟨rfl | hq, hnot⟩
      · exact ⟨hold.resolve_left hnot, hnot⟩
      · exact ⟨hq, hnot⟩
  · rw [List.mem_append, List.mem_singleton, h.mem_iff, List.mem_cons]
    constructor
    · rintro (hq | rfl)
      · exact ⟨Or.inr hq.1, hq.2⟩
      · exact ⟨Or.inl rfl, fun htrue => hskip (Or.inr htrue)⟩
    · rintro ⟨rfl | hq, hnot⟩
      · exact Or.inr rfl
      · exact Or.inl ⟨hq, hnot⟩

theorem Keeps.addAll {qs : List Cond} (h : s.Keeps b qs) (hps : ∀ p ∈ ps, b.Holds p) :
    (ps.foldl Solver.add s).Keeps b (ps.reverse ++ qs) := by
  induction ps generalizing s qs with
  | nil => exact h
  | cons p ps ih =>
      rw [List.forall_mem_cons] at hps
      rw [List.foldl_cons, List.reverse_cons, List.append_assoc]
      exact ih (h.add hps.1) hps.2

theorem History.keeps (h : s.History B b ps) : s.Keeps b ps := by
  induction h with
  | new hb backend => exact keeps_fresh hb.consistent backend
  | evolve h hc ih =>
      obtain ⟨hconsistent, hle⟩ := hc.runs ih.consistent
      exact ⟨hconsistent, ih.indexed.mono hle, fun p hp => (ih.held p hp).mono hle, ih.mem_iff⟩
  | add h hp ih => exact ih.add hp
  | clone h ih => exact ⟨ih.consistent, ⟨ih.indexed.held, ih.indexed.index⟩, ih.held, ih.mem_iff⟩

/-! ### Slices -/

theorem Keeps.chained_iff (h : s.Keeps b ps) (ht : b.Holds t) : d ∈ s.related t ↔ Chained ps t.free d := by
  rw [mem_related_iff h.consistent h.indexed ht]
  constructor
  · exact Chained.mono fun p hp _ => ((h.mem_iff p).mp hp).1
  · refine Chained.mono fun p hp hfree => (h.mem_iff p).mpr ⟨hp, fun htrue => hfree ?_⟩
    rw [Term.eq_truth_of_truth? htrue]
    rfl

theorem Keeps.refuted_iff (h : s.Keeps b ps) : s.refuted = true ↔ ∃ p ∈ ps, p.truth? = some false := by
  rw [refuted, List.any_eq_true]
  refine exists_congr fun p => ?_
  rw [h.mem_iff, beq_iff_eq, and_assoc, and_congr_right_iff]
  intro _
  constructor
  · exact And.right
  · exact fun hfalse => ⟨by rw [hfalse]; simp, hfalse⟩

theorem Keeps.conjunction_holds_iff (h : s.Keeps b ps) (ρ : Valuation) :
    (s.conjunction b).1.holds ρ = true ↔ ∀ p ∈ ps, p.holds ρ = true := by
  rw [(conjunction_runs h.consistent h.indexed).post.holds, List.all_eq_true]
  constructor
  · intro hall p hp
    by_cases htrue : p.truth? = some true
    · exact Term.holds_of_truth? htrue ρ
    · exact hall p ((h.mem_iff p).mpr ⟨hp, htrue⟩)
  · exact fun hall p hp => hall p ((h.mem_iff p).mp hp).1

theorem Keeps.slice_holds_iff (h : s.Keeps b ps) (ht : b.Holds t) (ρ : Valuation) :
    (s.slice t b).1.holds ρ = true ↔
      (∀ p, Chained ps t.free p → p.holds ρ = true) ∧ ∀ p ∈ ps, p.truth? ≠ some false := by
  have hrefuted : (!s.refuted) = true ↔ ∀ p ∈ ps, p.truth? ≠ some false := by
    rw [Bool.not_eq_true', ← Bool.not_eq_true, h.refuted_iff]
    simp
  rw [(slice_runs h.consistent h.indexed t).post.holds, Bool.and_eq_true, hrefuted, List.all_eq_true]
  exact and_congr_left fun _ => forall_congr' fun p => by rw [h.chained_iff ht]

/-- A condition that no chain connects to the term has no symbol in common with the slice or the term. -/
theorem Keeps.apart (h : s.Keeps b ps) (ht : b.Holds t) {p : Cond} (hp : p ∈ ps) (hnot : ¬Chained ps t.free p) :
    p.free.Disjoint ((s.slice t b).1.free ++ t.free) := by
  intro x hx hmem
  have hslice := (slice_runs h.consistent h.indexed t).post.free
  rcases List.mem_append.mp hmem with hmem | hmem
  · obtain ⟨d, hd, hxd⟩ := Term.mem_freeConds.mp (hslice hmem)
    exact hnot (.step ((h.chained_iff ht).mp hd) hp hx hxd)
  · exact hnot (.direct hp hx hmem)

end Solver

/-- The valuation with another one put over it, on the given symbols. -/
def Valuation.overlay (ρ τ : Valuation) (names : List (String × Nat)) : Valuation := fun name w =>
  if names.contains (name, w) then τ name w else ρ name w

theorem Valuation.overlay_agree (ρ τ : Valuation) {names names' : List (String × Nat)} (h : names' ⊆ names) :
    (ρ.overlay τ names).Agree τ names' := fun _ hx => if_pos (List.contains_iff_mem.mpr (h hx))

theorem Valuation.overlay_agree_of_disjoint (ρ τ : Valuation) {names names' : List (String × Nat)}
    (h : names'.Disjoint names) : (ρ.overlay τ names).Agree ρ names' :=
  fun _ hx => if_neg fun hmem => h hx (List.contains_iff_mem.mp hmem)

namespace Solver

variable {σ : Type} {B : Backend σ} {b : Builder} {s : Solver σ} {ps : List Cond}

/-- An assignment for a query and its slice, put over one for all conditions, is one for both. -/
theorem Keeps.overlay (h : s.Keeps b ps) {q : Cond} (hq : b.Holds q) {ρ τ : Valuation}
    (hρ : (s.conjunction b).1.holds ρ = true) (hτ : (s.slice q b).1.holds τ = true) (hquery : q.holds τ = true) :
    (s.conjunction b).1.holds (ρ.overlay τ ((s.slice q b).1.free ++ q.free)) = true ∧
      q.holds (ρ.overlay τ ((s.slice q b).1.free ++ q.free)) = true := by
  have hrun := slice_runs h.consistent h.indexed q
  set names := (s.slice q b).1.free ++ q.free
  have hslice : (s.slice q b).1.holds (ρ.overlay τ names) = true := by
    rw [Term.holds_congr hrun.consistent hrun.post.held (ρ.overlay_agree τ (List.subset_append_left _ _)), hτ]
  refine ⟨(h.conjunction_holds_iff _).mpr fun p hp => ?_, ?_⟩
  · by_cases hchained : Chained ps q.free p
    · exact ((h.slice_holds_iff hq _).mp hslice).1 p hchained
    · rw [Term.holds_congr h.consistent (h.held p hp) (ρ.overlay_agree_of_disjoint τ (h.apart hq hp hchained))]
      exact (h.conjunction_holds_iff ρ).mp hρ p hp
  · rw [Term.holds_congr h.consistent hq (ρ.overlay_agree τ (List.subset_append_right _ _)), hquery]

/-- A conjunction of all conditions implies every slice. -/
theorem Keeps.slice_of_conjunction (h : s.Keeps b ps) {k : Ty} {t : Term k} (ht : b.Holds t) {ρ : Valuation}
    (hρ : (s.conjunction b).1.holds ρ = true) : (s.slice t b).1.holds ρ = true := by
  have hall := (h.conjunction_holds_iff ρ).mp hρ
  refine (h.slice_holds_iff ht ρ).mpr ⟨fun p hp => hall p hp.mem, fun p hp hfalse => ?_⟩
  have hnot := Term.holds_of_truth? hfalse ρ
  rw [hall p hp] at hnot
  cases hnot

end Solver

/-- After any additions and copies, the slice for a term is the conjunction of the added conditions that chains
connect to it, false if the constant false was added, and no other added condition has a symbol of the slice or the
term. If all conditions can be satisfied, a query can be satisfied together with them exactly if it can be together
with its slice, by putting the assignment for the slice over any one for all conditions. -/
theorem slices_decide_queries {σ : Type} {B : Backend σ} {b : Builder} {s : Solver σ} {ps : List Cond}
    (h : s.History B b ps) :
    (∀ ρ, (s.conjunction b).1.holds ρ = true ↔ ∀ p ∈ ps, p.holds ρ = true) ∧
    (∀ {k : Ty} (q : Term k), b.Holds q →
      (∀ p, p ∈ s.related q ↔ Chained ps q.free p) ∧
      (∀ ρ, (s.slice q b).1.holds ρ = true ↔
        (∀ p, Chained ps q.free p → p.holds ρ = true) ∧ ∀ p ∈ ps, p.truth? ≠ some false) ∧
      ∀ p ∈ ps, ¬Chained ps q.free p → p.free.Disjoint ((s.slice q b).1.free ++ q.free)) ∧
    ∀ q : Cond, b.Holds q →
      ((∃ ρ, (s.conjunction b).1.holds ρ = true) →
        ((∃ ρ, (s.conjunction b).1.holds ρ = true ∧ q.holds ρ = true) ↔
          ∃ ρ, (s.slice q b).1.holds ρ = true ∧ q.holds ρ = true)) ∧
      ∀ ρ τ : Valuation, (s.conjunction b).1.holds ρ = true → (s.slice q b).1.holds τ = true → q.holds τ = true →
        (s.conjunction b).1.holds (ρ.overlay τ ((s.slice q b).1.free ++ q.free)) = true ∧
          q.holds (ρ.overlay τ ((s.slice q b).1.free ++ q.free)) = true := by
  have hkeeps := h.keeps
  refine ⟨hkeeps.conjunction_holds_iff, fun q hq => ⟨fun p => hkeeps.chained_iff hq, hkeeps.slice_holds_iff hq,
    fun p hp hnot => hkeeps.apart hq hp hnot⟩, fun q hq => ⟨fun ⟨ρ, hρ⟩ => ⟨?_, ?_⟩, fun ρ τ => hkeeps.overlay hq⟩⟩
  · rintro ⟨τ, hτ, hquery⟩
    exact ⟨τ, hkeeps.slice_of_conjunction hq hτ, hquery⟩
  · rintro ⟨τ, hτ, hquery⟩
    exact ⟨_, hkeeps.overlay hq hρ hτ hquery⟩

/-- Two links of a chain, the far one added first, and a copy between them. -/
theorem slices_decide_queries_of_chain :
    let B : Backend Unit := ⟨fun _ _ => pure (.unknown, ()), fun _ => none, fun _ _ _ _ => pure [], id⟩
    let x : Term .word := .symbol 1 "x" 8
    let y : Term .word := .symbol 2 "y" 8
    let z : Term .word := .symbol 3 "z" 8
    let near : Cond := .compare 4 .slt x y
    let far : Cond := .compare 5 .slt y z
    let b₁ := ((Request.symbol "x" 8).run { scatter := fun _ => 0 }).2
    let b₂ := ((Request.symbol "y" 8).run b₁).2
    let b₃ := ((Request.symbol "z" 8).run b₂).2
    let b₄ := ((Request.compare .slt x y).run b₃).2
    let b := ((Request.compare .slt y z).run b₄).2
    let s := ((({ backend := () } : Solver Unit).add far).clone B).add near
    s.History B b [near, far] ∧ b.Holds x ∧ b.Holds near ∧ far ∈ s.related x ∧
      ∃ ρ, (s.conjunction b).1.holds ρ = true ∧ near.holds ρ = true := by
  intro B x y z near far b₁ b₂ b₃ b₄ b s
  have h₁ : Evolves { scatter := fun _ => 0 } b₁ := Evolves.refl.request (.symbol "x" 8) trivial
  have h₂ : Evolves { scatter := fun _ => 0 } b₂ := h₁.request (.symbol "y" 8) trivial
  have h₃ : Evolves { scatter := fun _ => 0 } b₃ := h₂.request (.symbol "z" 8) trivial
  have hle₂ : b₁ ≤ b₂ := (Request.runs h₁.consistent (.symbol "y" 8) trivial).grows
  have hle₃ : b₂ ≤ b₃ := (Request.runs h₂.consistent (.symbol "z" 8) trivial).grows
  have hx₁ : b₁.Holds x := Request.holds_of_run consistent_empty trivial trivial rfl
  have hy₂ : b₂.Holds y := Request.holds_of_run h₁.consistent trivial trivial rfl
  have hz₃ : b₃.Holds z := Request.holds_of_run h₂.consistent trivial trivial rfl
  have hx₃ : b₃.Holds x := hx₁.mono (hle₂.trans hle₃)
  have hy₃ : b₃.Holds y := hy₂.mono hle₃
  have h₄ : Evolves { scatter := fun _ => 0 } b₄ := h₃.request (.compare .slt x y) ⟨hx₃, hy₃⟩
  have hle₄ : b₃ ≤ b₄ := (Request.runs h₃.consistent (.compare .slt x y) ⟨hx₃, hy₃⟩).grows
  have hnear₄ : b₄.Holds near := Request.holds_of_run h₃.consistent ⟨hx₃, hy₃⟩ rfl rfl
  have hyz₄ : b₄.Holds y ∧ b₄.Holds z := ⟨hy₃.mono hle₄, hz₃.mono hle₄⟩
  have hb : Evolves { scatter := fun _ => 0 } b := h₄.request (.compare .slt y z) hyz₄
  have hle : b₄ ≤ b := (Request.runs h₄.consistent (.compare .slt y z) hyz₄).grows
  have hfar : b.Holds far := Request.holds_of_run h₄.consistent hyz₄ rfl rfl
  have hx : b.Holds x := hx₃.mono (hle₄.trans hle)
  have hnear : b.Holds near := hnear₄.mono hle
  have h : s.History B b [near, far] := (((Solver.History.new hb ()).add hfar).clone).add hnear
  obtain ⟨hall, hslices, hqueries⟩ := slices_decide_queries h
  have hchained : Chained [near, far] x.free far :=
    .step (.direct List.mem_cons_self List.mem_cons_self List.mem_cons_self) (by simp) List.mem_cons_self
      (List.mem_cons_of_mem _ List.mem_cons_self)
  let ρ : Valuation := fun name _ => if name = "x" then 0 else if name = "y" then 1 else 2
  have hρ : ∀ p ∈ [near, far], p.holds ρ = true :=
    List.forall_mem_cons.mpr ⟨rfl, List.forall_mem_cons.mpr ⟨rfl, List.forall_mem_nil _⟩⟩
  have hslice : (s.slice near b).1.holds ρ = true := by
    refine ((hslices near hnear).2.1 ρ).mpr ⟨fun p hp => hρ p hp.mem, fun p hp hfalse => ?_⟩
    have hnot := Term.holds_of_truth? hfalse ρ
    rw [hρ p hp] at hnot
    cases hnot
  exact ⟨h, hx, hnear, ((hslices x hx).1 far).mpr hchained,
    ((hqueries near hnear).1 ⟨ρ, (hall ρ).mpr hρ⟩).mpr ⟨ρ, hslice, rfl⟩⟩

end Pathwise
