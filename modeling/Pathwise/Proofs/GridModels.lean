import Pathwise.Proofs.FreeSymbols
import Pathwise.Proofs.Inputs
import Pathwise.Solver.Grid

/-! Backends that decide exactly. An exact backend answers sat for the satisfiable conditions over integer
symbols, with a model that binds their symbols and no others, and unsat for the rest. A grid is such a backend
once every integer stands on it: its models cover the symbols of the condition, so each of them gives the
condition a value, and every valuation agrees on these symbols with one of the models. -/

namespace Pathwise

open Builder

/-- The model binds these symbols, to words of their widths, and no others. -/
structure Model.Binds (m : Model) (names : List (String × Nat)) : Prop where
  covers : m.Covers names
  only : ∀ name c, m.find? name = some c → (name, c.width) ∈ names

namespace Backend

variable {σ : Type}

/-- The backend decides the condition: a model that binds its symbols satisfies it, or nothing does. -/
structure Decides (B : Backend σ) (s : σ) (p : Cond) (b : Builder) : Prop where
  consistent : (B.check p s b).2.Consistent
  grows : b ≤ (B.check p s b).2
  answer : (∃ m, (B.check p s b).1.1 = .sat ∧ B.model (B.check p s b).1.2 = some m ∧ m.Binds p.free ∧
      ∀ ρ : Valuation, p.holds (ρ.override m) = true) ∨
    (B.check p s b).1.1 = .unsat ∧ ∀ ρ, p.holds ρ = false

/-- In this state the backend decides every condition over integer symbols. -/
def Exact (B : Backend σ) (s : σ) : Prop :=
  ∀ (b : Builder) (p : Cond), b.Consistent → b.Holds p → (∀ x ∈ p.free, x.2 = intWidth) → B.Decides s p b

end Backend

theorem Build.evalBool_grows {b : Builder} (hb : b.Consistent) {p : Cond} (hp : b.Holds p) (m : Model) :
    (evalBool m p b).2.Consistent ∧ b ≤ (evalBool m p b).2 := by
  have hsame : (evalBool m p b).2 = (eval m p b).2 := by
    rw [evalBool, bind_apply]
    cases (eval m p b).1 with
    | error e => rfl
    | ok q =>
        dsimp only
        cases q.truth? <;> rfl
  rw [hsame]
  obtain ⟨hc, hle, -⟩ := eval_spec hb hp m
  exact ⟨hc, hle⟩

namespace Grid

variable {b : Builder} {p : Cond} {m : Model} {ms : List Model} {values : List Int64} {ss : List Symbol}
  {name : String} {c : Word} {a : List (String × Word)}

/-! ### Models of a grid -/

theorem mem_of_mem_model {e : String × Word} (h : e ∈ (model a).entries) : e ∈ a := by
  induction a with
  | nil => exact h
  | cons f a ih =>
      rw [model, List.foldr_cons] at h
      split_ifs at h
      · exact List.mem_cons_of_mem _ (ih h)
      · exact (List.mem_cons.mp h).elim (fun h => h ▸ List.mem_cons_self) fun h => List.mem_cons_of_mem _ (ih h)

theorem name_mem_model (h : name ∈ a.map (·.1)) : name ∈ (model a).entries.map (·.1) := by
  induction a with
  | nil => exact h
  | cons f a ih =>
      rw [model, List.foldr_cons]
      split_ifs with hmem
      · rcases List.mem_cons.mp h with rfl | h
        · exact List.contains_iff_mem.mp hmem
        · exact ih h
      · rcases List.mem_cons.mp h with rfl | h
        · exact List.mem_cons_self
        · exact List.mem_cons_of_mem _ (ih h)

theorem mem_of_find?_model (h : (model a).find? name = some c) : (name, c) ∈ a := by
  obtain ⟨e, he, rfl⟩ := Option.map_eq_some_iff.mp h
  have hname := List.find?_some he
  rw [beq_iff_eq] at hname
  rw [← hname]
  exact mem_of_mem_model (List.mem_of_find?_eq_some he)

theorem exists_find?_model (h : name ∈ a.map (·.1)) : ∃ c, (model a).find? name = some c := by
  obtain ⟨e, he, rfl⟩ := List.mem_map.mp (name_mem_model h)
  cases hfind : (model a).entries.find? (·.1 == e.1) with
  | none => exact absurd (beq_self_eq_true e.1) (List.find?_eq_none.mp hfind e he)
  | some f => exact ⟨f.2, by rw [Model.find?, hfind]; rfl⟩

/-- An assignment of the grid has an entry for every symbol, of its width, and no others. -/
theorem entries_of_mem_assignments (h : a ∈ assignments values ss) :
    (∀ s ∈ ss, s.name ∈ a.map (·.1)) ∧ ∀ e ∈ a, ∃ s ∈ ss, e.1 = s.name ∧ e.2.width = s.width := by
  induction ss generalizing a with
  | nil =>
      obtain rfl := List.mem_singleton.mp h
      exact ⟨nofun, nofun⟩
  | cons s ss ih =>
      obtain ⟨v, -, ha⟩ := List.mem_flatMap.mp h
      obtain ⟨rest, hrest, rfl⟩ := List.mem_map.mp ha
      obtain ⟨hnames, hentries⟩ := ih hrest
      rw [List.forall_mem_cons, List.forall_mem_cons]
      refine ⟨⟨List.mem_cons_self, fun s' hs' => List.mem_cons_of_mem _ (hnames s' hs')⟩,
        ⟨s, List.mem_cons_self, rfl, rfl⟩, fun e he => ?_⟩
      obtain ⟨s', hs', hsame⟩ := hentries e he
      exact ⟨s', List.mem_cons_of_mem _ hs', hsame⟩

/-- Values of the grid for every symbol are one of its assignments. -/
theorem map_mem_assignments {f : Symbol → Int64} (hf : ∀ s ∈ ss, f s ∈ values) :
    ss.map (fun s => (s.name, Word.ofInt s.width (f s).toInt)) ∈ assignments values ss := by
  induction ss with
  | nil => exact List.mem_singleton.mpr rfl
  | cons s ss ih =>
      rw [List.forall_mem_cons] at hf
      rw [List.map_cons, assignments, List.mem_flatMap]
      exact ⟨f s, hf.1, List.mem_map_of_mem (ih hf.2)⟩

/-! ### Models of a condition -/

section Condition

variable (hb : b.Consistent) (hp : b.Holds p) (hwidth : ∀ x ∈ p.free, x.2 = intWidth)
include hb hp hwidth

theorem binds_of_mem_assignments (h : a ∈ assignments values p.symbols) : (model a).Binds p.free := by
  obtain ⟨hnames, hentries⟩ := entries_of_mem_assignments h
  have hentry : ∀ {name c}, (model a).find? name = some c → (name, c.width) ∈ p.free := by
    intro name c hc
    obtain ⟨s, hs, hname, hc⟩ := hentries _ (mem_of_find?_model hc)
    rw [show (name, c.width) = s.sort from Prod.ext hname hc]
    exact (Term.held_of_mem_symbols hb hp hs).2
  refine ⟨fun x hx => ?_, fun name c => hentry⟩
  obtain ⟨s, hs, rfl⟩ := Term.exists_mem_symbols hb hp hx
  obtain ⟨c, hc⟩ := exists_find?_model (hnames s hs)
  exact ⟨c, hc, (hwidth _ (hentry hc)).trans (hwidth _ hx).symm⟩

theorem binds_of_mem_models (h : m ∈ models values p.symbols) : m.Binds p.free := by
  obtain ⟨a, ha, rfl⟩ := List.mem_map.mp h
  exact binds_of_mem_assignments hb hp hwidth ha

/-- On a grid of all integers, some model agrees with the valuation on the symbols of the condition. -/
theorem exists_mem_models (hvalues : ∀ v, v ∈ values) (ρ : Valuation) :
    ∃ m ∈ models values p.symbols, p.holds (ρ.override m) = p.holds ρ := by
  set a := p.symbols.map fun s => (s.name, Word.ofInt s.width (Int64.ofBitVec (ρ s.name 64)).toInt) with ha
  have hmem : a ∈ assignments values p.symbols := map_mem_assignments fun s _ => hvalues _
  refine ⟨model a, List.mem_map_of_mem hmem, Term.holds_congr hb hp fun x hx => ?_⟩
  obtain ⟨c, hc, hcwidth⟩ := (binds_of_mem_assignments hb hp hwidth hmem).covers x hx
  obtain ⟨s, hs, heq⟩ := List.mem_map.mp (mem_of_find?_model hc)
  obtain ⟨hname, rfl⟩ := Prod.mk.inj heq
  obtain ⟨name, w⟩ := x
  cases (hwidth _ hx : w = 64)
  rw [Valuation.override, hc]
  dsimp only at hcwidth hname ⊢
  rw [if_pos hcwidth]
  rw [Word.width_ofInt] at hcwidth
  rw [hcwidth, Word.bits_ofInt, ← hname, Int64.toInt, Int64.toBitVec_ofBitVec]
  exact BitVec.ofInt_toInt

end Condition

/-- The search ends with a model that satisfies the condition, or none of them does. -/
theorem firstHolding_spec (hb : b.Consistent) (hp : b.Holds p) (hms : ∀ m ∈ ms, m.Covers p.free) :
    (firstHolding p ms b).2.Consistent ∧ b ≤ (firstHolding p ms b).2 ∧
      ((∃ m ∈ ms, (firstHolding p ms b).1 = some m ∧ ∀ ρ : Valuation, p.holds (ρ.override m) = true) ∨
        (firstHolding p ms b).1 = none ∧ ∀ m ∈ ms, ∀ ρ : Valuation, p.holds (ρ.override m) = false) := by
  induction ms generalizing b with
  | nil => exact ⟨hb, le_rfl, Or.inr ⟨rfl, nofun⟩⟩
  | cons m ms ih =>
      rw [List.forall_mem_cons] at hms
      have hvalue := fun ρ => Build.evalBool_of_covers hb hp hms.1 ρ
      obtain ⟨hc, hle⟩ := Build.evalBool_grows hb hp m
      rw [firstHolding, Build.bind_apply]
      cases hv : p.holds (Valuation.override (fun _ _ => 0) m) with
      | true =>
          have hholds : ∀ ρ : Valuation, p.holds (ρ.override m) = true := fun ρ =>
            (Except.ok.inj ((hvalue ρ).symm.trans (hvalue _))).trans hv
          rw [hvalue, hv]
          exact ⟨hc, hle, Or.inl ⟨m, List.mem_cons_self, rfl, hholds⟩⟩
      | false =>
          have hfails : ∀ ρ : Valuation, p.holds (ρ.override m) = false := fun ρ =>
            (Except.ok.inj ((hvalue ρ).symm.trans (hvalue _))).trans hv
          rw [hvalue, hv]
          obtain ⟨hc', hle', hrest⟩ := ih hc (hp.mono hle) hms.2
          refine ⟨hc', hle.trans hle', hrest.imp ?_ ?_⟩
          · rintro ⟨m', hm', hfound⟩
            exact ⟨m', List.mem_cons_of_mem _ hm', hfound⟩
          · rintro ⟨hnone, hall⟩
            exact ⟨hnone, List.forall_mem_cons.mpr ⟨hfails, hall⟩⟩

/-- All integers. -/
@[irreducible] def everyInt : List Int64 := (List.range UInt64.size).map fun n => Int64.ofBitVec (BitVec.ofNat 64 n)

theorem mem_everyInt (v : Int64) : v ∈ everyInt := by
  unfold everyInt
  refine List.mem_map.mpr ⟨v.toBitVec.toNat, List.mem_range.mpr v.toBitVec.isLt, ?_⟩
  rw [BitVec.ofNat_toNat, BitVec.setWidth_eq]
  rfl

end Grid

/-! ### The grid as a backend -/

/-- A grid of all integers is exact. -/
theorem BackendState.grid_exact {values : List Int64} (hvalues : ∀ v, v ∈ values) (m : Option Model) :
    backend.Exact (.grid values false m) := by
  intro b p hb hp hwidth
  have hbinds : ∀ m ∈ Grid.models values p.symbols, m.Binds p.free := fun m hm =>
    Grid.binds_of_mem_models hb hp hwidth hm
  obtain ⟨hc, hle, hanswer⟩ := Grid.firstHolding_spec hb hp fun m hm => (hbinds m hm).covers
  have hrun : backend.check p (.grid values false m) b =
      ((Grid.firstHolding p (Grid.models values p.symbols) b).1.elim (.unsat, .grid values false none)
          fun m => (.sat, .grid values false (some m)),
        (Grid.firstHolding p (Grid.models values p.symbols) b).2) := by
    change BackendState.check p (.grid values false m) b = _
    rw [BackendState.check, Build.bind_apply]
    cases (Grid.firstHolding p (Grid.models values p.symbols) b).1 <;> rfl
  refine ⟨by rwa [hrun], by rwa [hrun], ?_⟩
  rw [hrun]
  rcases hanswer with ⟨m', hm', hfound, hholds⟩ | ⟨hnone, hfails⟩
  · rw [hfound]
    exact Or.inl ⟨m', rfl, rfl, hbinds m' hm', hholds⟩
  · rw [hnone]
    refine Or.inr ⟨rfl, fun ρ => ?_⟩
    obtain ⟨m', hm', hsame⟩ := Grid.exists_mem_models hb hp hwidth hvalues ρ
    rw [← hsame]
    exact hfails m' hm' ρ

end Pathwise
