import Pathwise.Proofs.Constructors

/-! Evaluation in every builder. However a builder has come about, evaluating a held term under a model is
substitution: it fails exactly if the model's word for one of the term's symbols has another width, and
otherwise has, under every valuation, the value that the term has with the model's words put in. -/

namespace Pathwise

open Builder

/-! ### Values -/

/-- The constants of a sort. -/
def Ty.Constant : Ty → Type
  | .word => Word
  | .bool => Bool

/-- The value of a term under a valuation. -/
def Term.value (ρ : Valuation) : {k : Ty} → Term k → k.Constant
  | .word, t => Word.ofNat t.width (t.bits ρ t.width).toNat
  | .bool, p => p.holds ρ

/-- Evaluation to a value of the term's sort, under a model that has to cover its symbols. -/
def Build.evalValue (m : Model) : {k : Ty} → Term k → Build (Except EvalError k.Constant)
  | .word, t => evalWord m t
  | .bool, p => evalBool m p

theorem Word.eq_ofNat_bits {c : Word} {w : Nat} {x : BitVec w} (hwidth : c.width = w) (h : c.bits w = x) :
    c = ofNat w x.toNat := by
  subst hwidth
  rw [← h, toNat_bits rfl]
  obtain ⟨width, value, hlt⟩ := c
  simp only [ofNat, Nat.mod_eq_of_lt hlt]

theorem Builder.Replaces.value_eq {b : Builder} {m : Model} {k : Ty} {t u : Term k} (h : b.Replaces m t u)
    (ρ : Valuation) : u.value ρ = t.value (ρ.override m) := by
  cases k with
  | word =>
      have h : b.MeansWord u _ _ := h
      change Word.ofNat u.width (u.bits ρ u.width).toNat = Word.ofNat t.width _
      rw [h.width, h.bits]
  | bool => exact MeansCond.holds h ρ

theorem Build.evalValue_of_covers {b : Builder} (hb : b.Consistent) {m : Model} {k : Ty} {t : Term k}
    (ht : b.Holds t) (hm : m.Covers t.free) (ρ : Valuation) :
    (evalValue m t b).1 = .ok (t.value (ρ.override m)) := by
  cases k with
  | word =>
      obtain ⟨c, hc, hwidth, hbits⟩ := evalWord_of_covers hb ⟨ht, rfl⟩ hm ρ
      exact hc.trans (congrArg Except.ok (Word.eq_ofNat_bits hwidth hbits))
  | bool => exact evalBool_of_covers hb ht hm ρ

/-- A model that binds every symbol and gives none a word of another width covers them. -/
theorem Model.Fits.covers {m : Model} {names : List (String × Nat)} (h : m.Fits names)
    (hbound : ∀ s ∈ names, (m.find? s.1).isSome) : m.Covers names := by
  intro s hs
  obtain ⟨c, hc⟩ := Option.isSome_iff_exists.mp (hbound s hs)
  exact ⟨c, hc, h s hs c hc⟩

/-- Evaluation fails exactly if the model's word for a free symbol has another width. Otherwise the result has
the value of the term with the model's words put in, under every valuation, and if the model binds every free
symbol it is a constant, whose value is what the evaluation to a value gives. -/
theorem evaluation_is_substitution {scatter : List Nat → Nat} {b : Builder} (hb : Evolves { scatter } b) {k : Ty}
    {t : Term k} (ht : b.Holds t) (m : Model) :
    ((∃ e, (Build.eval m t b).1 = .error e) ↔
        ∃ s ∈ t.free, ∃ c, m.find? s.1 = some c ∧ c.width ≠ s.2) ∧
      ∀ u, (Build.eval m t b).1 = .ok u →
        (Build.eval m t b).2.Holds u ∧ (∀ ρ, u.value ρ = t.value (ρ.override m)) ∧
        ((∀ s ∈ t.free, (m.find? s.1).isSome) →
          u.isConst = true ∧ ∀ ρ : Valuation, (Build.evalValue m t b).1 = .ok (t.value (ρ.override m))) := by
  obtain ⟨-, -, ⟨u, hu, hfits, hreplaces⟩ | ⟨e, he, s, hs, c, hc, hwidth, -⟩⟩ :=
    Build.eval_spec hb.consistent ht m
  · refine ⟨⟨fun ⟨e, he⟩ => ?_, fun ⟨s, hs, c, hc, hwidth⟩ => absurd (hfits s hs c hc) hwidth⟩, fun u' hu' => ?_⟩
    · cases hu.symm.trans he
    · cases hu.symm.trans hu'
      refine ⟨hreplaces.held, hreplaces.value_eq, fun hbound => ?_⟩
      have hcovers := hfits.covers hbound
      obtain ⟨u', hu', -, hconst⟩ := Build.eval_of_covers hb.consistent ht hcovers
      cases hu.symm.trans hu'
      exact ⟨hconst, Build.evalValue_of_covers hb.consistent ht hcovers⟩
  · refine ⟨⟨fun _ => ⟨s, hs, c, hc, hwidth⟩, fun _ => ⟨e, he⟩⟩, fun u hu => ?_⟩
    cases he.symm.trans hu

/-- A comparison of two symbols that the model binds, in a builder whose fingerprints all collide. -/
theorem evaluation_is_substitution_of_collisions :
    let x : Term .word := .symbol 1 "x" 8
    let y : Term .word := .symbol 2 "y" 8
    let p : Cond := .compare 3 .slt x y
    let b₁ := ((Request.symbol "x" 8).run { scatter := fun _ => 0 }).2
    let b₂ := ((Request.symbol "y" 8).run b₁).2
    let b := ((Request.compare .slt x y).run b₂).2
    let m : Model := ⟨[("x", .ofInt 8 5), ("y", .ofInt 8 (-3))]⟩
    Evolves { scatter := fun _ => 0 } b ∧ b.Holds p ∧ (∀ s ∈ p.free, (m.find? s.1).isSome) ∧
      ∃ u, (Build.eval m p b).1 = .ok u ∧ u.isConst = true ∧
        ∀ ρ : Valuation, (Build.evalValue m p b).1 = .ok (p.value (ρ.override m)) := by
  intro x y p b₁ b₂ b m
  have h₁ : Evolves { scatter := fun _ => 0 } b₁ := Evolves.refl.request (.symbol "x" 8) trivial
  have h₂ : Evolves { scatter := fun _ => 0 } b₂ := h₁.request (.symbol "y" 8) trivial
  have hx₁ : b₁.Holds x := Request.holds_of_run consistent_empty trivial trivial rfl
  have hx : b₂.Holds x := hx₁.mono (Request.runs h₁.consistent (.symbol "y" 8) trivial).grows
  have hy : b₂.Holds y := Request.holds_of_run h₁.consistent trivial trivial rfl
  have h : Evolves { scatter := fun _ => 0 } b := h₂.request (.compare .slt x y) ⟨hx, hy⟩
  have hp : b.Holds p := Request.holds_of_run h₂.consistent ⟨hx, hy⟩ rfl rfl
  have hbound : ∀ s ∈ p.free, (m.find? s.1).isSome := by decide
  have hrun : (Build.eval m p b).1 = .ok (.truth 6 false) := rfl
  obtain ⟨-, hok⟩ := evaluation_is_substitution h hp m
  exact ⟨h, hp, hbound, _, hrun, (hok _ hrun).2.2 hbound⟩

end Pathwise
