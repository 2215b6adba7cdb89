import Std.Data.String.ToInt
import Pathwise.Proofs.Outcomes
import Pathwise.Proofs.Replay

/-! Runs along a recorded path. The path condition of a run is the conjunction of the decisions that it took.
Inputs of the same shape that satisfy it take the same decisions, so a run on them ends alike: with the same
panic, or with the value that the recorded result has under these inputs. Hence a recorded run tells the outcome
on every input that satisfies its path condition (`Invocation.Recorded.native_eq`), and the formulas that are
built from two recorded runs mean what they are meant to. -/

namespace Pathwise

open Builder

variable {b c : Builder} {ρ : Valuation} {names : List (String × Nat)} {p q : Cond} {i j : Nat}

/-! ### Results under a valuation -/

namespace SymInt

/-- What the value stands for under a valuation: what its term does, or itself. -/
def meaning (x : SymInt) (ρ : Valuation) : BitVec intWidth :=
  match x.origin with
  | none => x.value.toBitVec
  | some o => o.term.bits ρ intWidth

theorem meaning_of_sound {x : SymInt} (hx : x.Sound b ρ names i) : x.meaning ρ = x.value.toBitVec := by
  unfold meaning
  cases ho : x.origin with
  | none => rfl
  | some o => exact (hx o ho).2.2.gives.2

theorem meaning_congr {x y : SymInt} (h : Tracked.Alike (k := .word) x y) : x.meaning = y.meaning := by
  funext ρ
  unfold meaning
  rw [← h.1]
  cases ho : x.origin with
  | none =>
      dsimp only
      rw [h.2 ho]
  | some o => rfl

theorem meaning_of_origin {x : SymInt} (h : x.origin = none) : x.meaning ρ = x.value.toBitVec := by
  rw [meaning, h]

/-- The term of a value has its meaning. -/
theorem term_means (hb : b.Consistent) {x : SymInt} (hx : x.Sound b ρ names i) :
    Build.Runs x.term b fun t c => c.MeansWord t x.meaning names := by
  unfold term meaning
  cases ho : x.origin with
  | none =>
      refine (Build.int_runs hb x.value.toInt intWidth names).imp fun t c _ _ ht => ?_
      exact ht.congr (fun _ => BitVec.ofInt_toInt) (List.Subset.refl _)
  | some o =>
      obtain ⟨-, -, hknows⟩ := hx o ho
      exact Build.Runs.pure hb ⟨hknows.holdsAt, fun _ => rfl, hknows.free⟩

end SymInt

theorem isDigit_of_mem_toString {n : Int} {d : Char} (h : d ∈ (toString n).toList) : d = '-' ∨ d.isDigit = true := by
  have hdigits : ∀ {k : Nat}, d ∈ (Nat.repr k).toList → d.isDigit = true := by
    intro k hk
    rw [Nat.repr_eq_ofList_toDigits, String.toList_ofList] at hk
    exact Nat.isDigit_of_mem_toDigits (by decide) (by decide) hk
  rw [Int.toString_eq_repr, Int.repr_eq_if] at h
  split_ifs at h
  · exact Or.inr (hdigits h)
  · rw [String.toList_append] at h
    rcases List.mem_append.mp h with h | h
    · exact Or.inl (List.mem_singleton.mp h)
    · exact Or.inr (hdigits h)

/-- The text of a panic is not that of a number. -/
theorem panic_text_ne_toString (text : String) (n : Int) : "panic: " ++ text ≠ toString n := by
  intro heq
  have hmem : 'p' ∈ (toString n).toList := by
    rw [← heq, String.toList_append]
    exact List.mem_append_left _ (by decide)
  exact absurd (isDigit_of_mem_toString hmem) (by decide)

namespace RunResult

variable {r r' : RunResult}

/-- The outcome of a result under a valuation. -/
def outcomeAt (r : RunResult) (ρ : Valuation) : String :=
  if r.panicked then r.outcome else toString (r.value.meaning ρ).toInt

/-- A result like another one has its outcome under the valuation that the value agrees with. -/
theorem outcome_eq_outcomeAt (hpanic : r'.panic = r.panic) (halike : Tracked.Alike (k := .word) r.value r'.value)
    (hsound : r'.value.Sound b ρ names i) : r'.outcome = r.outcomeAt ρ := by
  unfold outcomeAt outcome panicked
  rw [hpanic, SymInt.meaning_congr halike, SymInt.meaning_of_sound hsound]
  split_ifs <;> rfl

theorem panicked_eq_of_outcome_eq (h : r.outcome = r'.outcome) : r.panicked = r'.panicked := by
  unfold outcome at h
  cases hr : r.panicked <;> cases hr' : r'.panicked <;>
    simp only [hr, hr', if_true, if_false, Bool.false_eq_true] at h
  · rfl
  · exact absurd h.symm (panic_text_ne_toString _ _)
  · exact absurd h (panic_text_ne_toString _ _)
  · rfl

theorem outcomeAt_of_panicked (h : r.panicked = true) : r.outcomeAt ρ = r.outcome := if_pos h

/-- Results that are no panics have the same outcome exactly if they mean the same. -/
theorem outcomeAt_eq_iff (h : r.panicked = false) (h' : r'.panicked = false) :
    r.outcomeAt ρ = r'.outcomeAt ρ ↔ r.value.meaning ρ = r'.value.meaning ρ := by
  unfold outcomeAt
  rw [h, h', if_neg Bool.false_ne_true, if_neg Bool.false_ne_true, Int.toString_eq_repr, Int.toString_eq_repr,
    Int.repr_inj, BitVec.toInt_inj]

end RunResult

/-! ### Formulas of two runs -/

namespace Trace

theorem deviation_runs (hb : b.Consistent) (hp : b.Holds p ∧ p.free ⊆ names) (hq : b.Holds q ∧ q.free ⊆ names) :
    Build.Runs (deviation p q) b fun f c => c.MeansCond f (fun ρ => p.holds ρ != q.holds ρ) names := by
  refine Build.Runs.bind (Build.boolNot_runs hb hq.1) fun notQ b₁ h₁ hb₁ hnotQ => ?_
  refine Build.Runs.bind (Build.join_runs hb₁ (hp.1.mono h₁) hnotQ.held .and) fun onlyP b₂ h₂ hb₂ honlyP => ?_
  have hle := h₁.trans h₂
  refine Build.Runs.bind (Build.boolNot_runs hb₂ (hp.1.mono hle)) fun notP b₃ h₃ hb₃ hnotP => ?_
  refine Build.Runs.bind (Build.join_runs hb₃ (hq.1.mono (hle.trans h₃)) hnotP.held .and)
    fun onlyQ b₄ h₄ hb₄ honlyQ => ?_
  refine (Build.join_runs hb₄ (honlyP.held.mono (h₃.trans h₄)) honlyQ.held .or).imp
    fun f d _ _ hf => hf.congr (fun ρ => ?_) (List.append_subset.mpr ⟨?_, ?_⟩)
  · rw [honlyP.holds, honlyQ.holds, hnotQ.holds, hnotP.holds]
    cases p.holds ρ <;> cases q.holds ρ <;> rfl
  · exact List.Subset.trans honlyP.free (List.append_subset.mpr ⟨hp.2, List.Subset.trans hnotQ.free hq.2⟩)
  · exact List.Subset.trans honlyQ.free (List.append_subset.mpr ⟨hq.2, List.Subset.trans hnotP.free hp.2⟩)

theorem divergence_runs (hb : b.Consistent) {x y : SymInt} (hx : x.Sound b ρ names i) (hy : y.Sound b ρ names j)
    (hp : b.Holds p ∧ p.free ⊆ names) (hq : b.Holds q ∧ q.free ⊆ names) :
    Build.Runs (divergence x y p q) b fun f c =>
      c.MeansCond f (fun τ => x.meaning τ != y.meaning τ && (p.holds τ && q.holds τ)) names := by
  refine Build.Runs.bind (SymInt.term_means hb hx) fun s b₁ h₁ hb₁ hs => ?_
  refine Build.Runs.bind (SymInt.term_means hb₁ (hy.mono h₁)) fun t b₂ h₂ hb₂ ht => ?_
  refine Build.Runs.bind (Build.notEqual_runs hb₂ (hs.toHoldsAt.mono h₂) ht.toHoldsAt)
    fun differ b₃ h₃ hb₃ hdiffer => ?_
  have hle := (h₁.trans h₂).trans h₃
  have hfree : differ.free ⊆ names := List.Subset.trans hdiffer.free (List.append_subset.mpr ⟨hs.free, ht.free⟩)
  have hheld : ∀ r ∈ [differ, p, q], b₃.Holds r ∧ r.free ⊆ names := by
    simp only [List.forall_mem_cons, List.not_mem_nil, false_implies, implies_true, and_true]
    exact ⟨⟨hdiffer.held, hfree⟩, ⟨hp.1.mono hle, hp.2⟩, hq.1.mono hle, hq.2⟩
  refine (Build.all_runs hb₃ hheld).imp fun f d _ _ hf => hf.congr (fun τ => ?_) (List.Subset.refl _)
  rw [List.map_cons, hdiffer.holds, hs.bits, ht.bits]
  simp [Connective.total, Connective.apply, Connective.unit]

end Trace

/-! ### Recorded runs -/

theorem InputMap.exists_natives {m m' : InputMap} (h : m.shape = m'.shape) (params : List String) :
    ∀ {args args' as : Args}, m.natives params args = .ok as → ∃ as', m'.natives params args' = .ok as' := by
  induction params with
  | nil => exact fun _ => ⟨_, rfl⟩
  | cons name params ih =>
      intro args args' as has
      rw [natives] at has ⊢
      rcases find?_of_shape h name with ⟨hi, hj⟩ | ⟨i, j, hi, hj, -⟩
      · rw [hi] at has
        cases has
      · rw [hi] at has
        rw [hj]
        exact ih has

namespace Invocation

variable {inv : Invocation} {r : Routine} {m m' : InputMap} {e : Except Stop SymInt × Trace} {v : Except Stop SymInt}
  {t : Trace} {result : RunResult} {condition : Cond}

theorem exists_runM_of_shape (hrun : (inv.runM r m b).1 = .ok e) (hshape : m.shape = m'.shape) (c : Builder) :
    ∃ e', (inv.runM r m' c).1 = .ok e' := by
  have hnative := inv.native_runM r m b
  have hnative' := inv.native_runM r m' c
  rw [hrun] at hnative
  cases has : m.natives inv.params [] with
  | error err =>
      rw [has] at hnative
      cases hnative
  | ok as =>
      obtain ⟨as', has'⟩ : ∃ as', m'.natives inv.params [] = .ok as' :=
        InputMap.exists_natives hshape inv.params has
      rw [has'] at hnative'
      rcases hrun' : (inv.runM r m' c).1 with err | e'
      · rw [hrun'] at hnative'
        cases hnative'
      · exact ⟨e', rfl⟩

/-- On inputs that satisfy what a run recorded, a run records the same and ends alike. -/
theorem Settled.rerun (hb : b.Consistent) (h : inv.Settled r b m (v, t)) (hshape : m.shape = m'.shape)
    (ht : t.HoldsFor m'.valuation) : ∃ v', (inv.runM r m' b).1 = .ok (v', t) ∧ EndAlike v v' := by
  obtain ⟨⟨v', t'⟩, hrun⟩ := exists_runM_of_shape h.ran hshape b
  have hran := inv.runM_runs r hb m'
  have hsettled := settled_runM hb hrun
  have hcoherent := (h.mono hb hran.consistent hran.grows).coherent hran.consistent hsettled hshape
  cases hcoherent with
  | same _ ends => exact ⟨v', hrun, ends⟩
  | apart before d rest rest' =>
      have hd : d.HoldsFor m'.valuation := ht d (List.mem_append_right _ List.mem_cons_self)
      have hflip : d.flip.HoldsFor m'.valuation :=
        (hsettled.ends hran.consistent).2.2 d.flip (List.mem_append_right _ List.mem_cons_self)
      exact absurd hflip hd.not_flip

/-- In the builder the run has the result, and the condition says what the run recorded. -/
def Recorded (inv : Invocation) (r : Routine) (b : Builder) (m : InputMap) (result : RunResult)
    (condition : Cond) : Prop :=
  ∃ v t, inv.Settled r b m (v, t) ∧ resultOf inv.name v = .ok result ∧
    b.MeansCond condition (fun ρ => t.all fun d => d.cond.holds ρ == d.taken) m.symbols

theorem Recorded.mono (hb : b.Consistent) (h : inv.Recorded r b m result condition) (hc : c.Consistent)
    (hle : b ≤ c) : inv.Recorded r c m result condition := by
  obtain ⟨v, t, hsettled, hresult, hcondition⟩ := h
  exact ⟨v, t, hsettled.mono hb hc hle, hresult, hcondition.mono hle⟩

theorem Recorded.held (h : inv.Recorded r b m result condition) :
    b.Holds condition ∧ condition.free ⊆ m.symbols := by
  obtain ⟨v, t, -, -, hcondition⟩ := h
  exact ⟨hcondition.held, hcondition.free⟩

/-- The value of the result agrees with its term. -/
theorem Recorded.value (hb : b.Consistent) (h : inv.Recorded r b m result condition) :
    result.value.Sound b m.valuation m.symbols inv.path := by
  obtain ⟨v, t, hsettled, hresult, -⟩ := h
  rcases v with (_ | _ | _) | x
  · cases hresult
  · cases hresult
  · cases hresult
    exact Tracked.sound_of_value (k := .word) 0
  · cases hresult
    exact (hsettled.ends hb).1 x rfl

/-- A recorded run tells the outcome on every input that satisfies its path condition. -/
theorem Recorded.native_eq (hr : inv.Follows r) (hb : b.Consistent) (h : inv.Recorded r b m result condition)
    (hshape : m.shape = m'.shape) (hholds : condition.holds m'.valuation = true) :
    inv.native r m' = .ok (result.outcomeAt m'.valuation) := by
  obtain ⟨v, t, hsettled, hresult, hcondition⟩ := h
  have ht : t.HoldsFor m'.valuation := by
    rw [hcondition.holds, List.all_eq_true] at hholds
    exact fun d hd => beq_iff_eq.mp (hholds d hd)
  obtain ⟨v', hrun, hends⟩ := hsettled.rerun hb hshape ht
  obtain ⟨result', hresult', hpanic, halike⟩ := resultOf_alike hends hresult
  let w : World := { builder := b, paths := Array.replicate (inv.path + 1) {} }
  have hw : w.Ready inv.path := ⟨by simp [w], by simp [w, World.path]⟩
  have hcall := call_of_runM hr hw hrun hresult'
  rw [← outcome_call hr hw, hcall]
  rw [call_eq hr hw] at hcall
  have hsound := (inv.callM_runs r hb m').post.value (result', t) hcall
  exact congrArg Except.ok (RunResult.outcome_eq_outcomeAt hpanic halike hsound)

end Invocation
end Pathwise
