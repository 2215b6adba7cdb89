import Mathlib.Data.List.Basic
import Pathwise.Proofs.Canonicity
import Pathwise.Proofs.Slicing

/-! Order does not matter. Conditions that are joined come to a decision, if one of their parts is a constant that
makes it, and otherwise to the set of their other parts. As with words, a held condition is determined by what
its parts come to; and so the answer to joining conditions, in any order and with any brackets, depends on the set
of them only.

The constraints of a solver, and which of them matter to a term, are sets as well. So their conjunctions have one
text, in whatever order the constraints are gone through and the index lists them. -/

namespace Pathwise

open Builder

variable {w : Nat} {b c : Builder}

/-! ### Conditions are determined by what their parts come to -/

namespace Connective

/-- One of the conditions is the constant that decides the connective. -/
def Decided (op : Connective) (ps : List Cond) : Prop := ∃ p ∈ ps, p.truth? = some (!op.unit)

/-- The conditions come to the same. -/
structure Equates (op : Connective) (ps qs : List Cond) : Prop where
  decided : op.Decided ps ↔ op.Decided qs
  parts : ¬op.Decided ps → ∀ p, p.isConst = false → (p ∈ ps ↔ p ∈ qs)

variable {op : Connective} {ps qs rs ss : List Cond} {p q : Cond}

theorem decided_append : op.Decided (ps ++ qs) ↔ op.Decided ps ∨ op.Decided qs := by
  simp only [Decided, List.mem_append, or_and_right, exists_or]

theorem decided_singleton : op.Decided [p] ↔ p.truth? = some (!op.unit) := by
  simp only [Decided, List.mem_singleton, exists_eq_left]

theorem not_decided (h : ∀ p ∈ ps, p.isConst = false) : ¬op.Decided ps := by
  rintro ⟨p, hp, hv⟩
  rw [Term.truth?_eq_none_iff.mpr (h p hp)] at hv
  cases hv

namespace Equates

theorem of_mem_iff (h : ∀ p, p ∈ ps ↔ p ∈ qs) : op.Equates ps qs :=
  ⟨exists_congr fun p => and_congr_left' (h p), fun _ p _ => h p⟩

theorem symm (h : op.Equates ps qs) : op.Equates qs ps :=
  ⟨h.decided.symm, fun hnot p hp => (h.parts (mt h.decided.mp hnot) p hp).symm⟩

theorem trans (h : op.Equates ps qs) (h' : op.Equates qs rs) : op.Equates ps rs :=
  ⟨h.decided.trans h'.decided, fun hnot p hp =>
    (h.parts hnot p hp).trans (h'.parts (mt h.decided.mpr hnot) p hp)⟩

theorem append (h : op.Equates ps qs) (h' : op.Equates rs ss) : op.Equates (ps ++ rs) (qs ++ ss) := by
  refine ⟨?_, fun hnot p hp => ?_⟩
  · rw [decided_append, decided_append, h.decided, h'.decided]
  · rw [decided_append, not_or] at hnot
    rw [List.mem_append, List.mem_append, h.parts hnot.1 p hp, h'.parts hnot.2 p hp]

/-- A constant that does not decide can be left out. -/
theorem unit_append (hp : p.truth? = some op.unit) (ps : List Cond) : op.Equates ps ([p] ++ ps) := by
  refine ⟨?_, fun _ q hq => ?_⟩
  · rw [decided_append, decided_singleton, hp, Option.some_inj, eq_comm]
    simp
  · have hne : q ≠ p := by
      rintro rfl
      rw [Term.truth?_eq_none_iff.mpr hq] at hp
      cases hp
    rw [List.singleton_append, List.mem_cons, or_iff_right hne]

theorem of_decided (hps : op.Decided ps) (hqs : op.Decided qs) : op.Equates ps qs :=
  ⟨iff_of_true hps hqs, fun hnot => absurd hps hnot⟩

end Equates
end Connective

namespace Term

open Connective

variable {op : Connective} {p q r : Cond} {v : Bool}

theorem condParts_of_truth? (h : p.truth? = some v) : p.condParts op = [p] := by
  rw [eq_truth_of_truth? h]
  rfl

/-- A condition is its only part, or its parts are those of a junction. -/
theorem condParts_cases (htidy : b.Tidy) (op : Connective) (hp : b.Holds p) :
    p.condParts op = [p] ∨ ∃ i, p = .junction i op (p.condParts op) ∧ 2 ≤ (p.condParts op).length ∧
      (p.condParts op).Pairwise fun q r => q.id < r.id := by
  cases p with
  | junction i o args =>
      by_cases hop : o = op
      · subst hop
        rw [condParts, if_pos rfl]
        exact Or.inr ⟨i, rfl, (htidy.term hp).1, (htidy.term hp).2.1⟩
      · rw [condParts, if_neg hop]
        exact Or.inl rfl
  | _ => exact Or.inl rfl

theorem condParts_sorted (htidy : b.Tidy) (op : Connective) (hp : b.Holds p) :
    (p.condParts op).Pairwise fun q r => q.id < r.id := by
  rcases condParts_cases htidy op hp with h | ⟨i, -, -, hsorted⟩
  · rw [h]
    exact List.pairwise_singleton _ _
  · exact hsorted

theorem not_decided_condParts (hb : b.Consistent) (hp : b.Holds p) (hconst : p.isConst = false) :
    ¬op.Decided (p.condParts op) :=
  not_decided fun _ hq => (hp.condParts hb hconst hq).2

/-- A constant does not come to what another condition comes to. -/
theorem not_equates_of_const (hb : b.Consistent) (hq : b.Holds q) (hpconst : p.truth? = some v)
    (hqconst : q.isConst = false) : ¬op.Equates (p.condParts op) (q.condParts op) := by
  intro h
  obtain ⟨r, hr⟩ := List.exists_mem_of_ne_nil _ (condParts_ne_nil hb op hq)
  have hrconst := (hq.condParts hb hqconst hr).2
  have hnot : ¬op.Decided (p.condParts op) := mt h.decided.mp (not_decided_condParts hb hq hqconst)
  have hmem := (h.parts hnot r hrconst).mpr hr
  rw [condParts_of_truth? hpconst, List.mem_singleton] at hmem
  rw [← hmem, truth?_eq_none_iff.mpr hrconst] at hpconst
  cases hpconst

/-- Of conditions that are sorted by number, and different, the set determines the list. -/
theorem eq_of_sorted {ps qs : List Cond} (hps : ps.Pairwise fun p q => p.id < q.id)
    (hqs : qs.Pairwise fun p q => p.id < q.id) (h : ∀ p, p ∈ ps ↔ p ∈ qs) : ps = qs := by
  have hnodup : ∀ {rs : List Cond}, (rs.Pairwise fun p q => p.id < q.id) → rs.Nodup := fun hrs =>
    hrs.imp (S := (· ≠ ·)) fun hlt heq => lt_irrefl _ (heq ▸ hlt)
  exact ((List.perm_ext_iff_of_nodup (hnodup hps) (hnodup hqs)).mpr h).eq_of_pairwise
    (fun _ _ _ _ hlt hgt => absurd hlt (lt_asymm hgt)) hps hqs

/-- Conditions whose parts come to the same differ in their numbers only. They need not be held by one builder. -/
theorem withId_eq_of_equates (hb : b.Consistent) (htidy : b.Tidy) (hc : c.Consistent) (htidy' : c.Tidy)
    (hp : b.Holds p) (hq : c.Holds q) (h : op.Equates (p.condParts op) (q.condParts op)) :
    p.withId 0 = q.withId 0 := by
  cases hv : p.truth? with
  | some v =>
      cases hv' : q.truth? with
      | none => exact absurd h (not_equates_of_const hc hq hv (truth?_eq_none_iff.mp hv'))
      | some v' =>
          have hdecided := h.decided
          rw [condParts_of_truth? hv, condParts_of_truth? hv', decided_singleton, decided_singleton, hv, hv',
            Option.some_inj, Option.some_inj] at hdecided
          have hvalues : v = v' := by revert hdecided; cases op <;> cases v <;> cases v' <;> decide
          rw [eq_truth_of_truth? hv, eq_truth_of_truth? hv', hvalues]
          rfl
  | none =>
      have hconst := truth?_eq_none_iff.mp hv
      cases hv' : q.truth? with
      | some v' => exact absurd h.symm (not_equates_of_const hb hp hv' hconst)
      | none =>
          have hconst' := truth?_eq_none_iff.mp hv'
          have hmem : ∀ r, r ∈ p.condParts op ↔ r ∈ q.condParts op := fun r => by
            have hiff := h.parts (not_decided_condParts hb hp hconst) r
            exact ⟨fun hr => (hiff (hp.condParts hb hconst hr).2).mp hr, fun hr =>
              (hiff (hq.condParts hc hconst' hr).2).mpr hr⟩
          have heq := eq_of_sorted (condParts_sorted htidy op hp) (condParts_sorted htidy' op hq) hmem
          rcases condParts_cases htidy op hp with hp' | ⟨i, hp', hmany, -⟩ <;>
            rcases condParts_cases htidy' op hq with hq' | ⟨j, hq', hmany', -⟩
          · rw [List.singleton_inj.mp (hp'.symm.trans (heq.trans hq'))]
          · rw [← heq, hp', List.length_singleton] at hmany'
            omega
          · rw [heq, hq', List.length_singleton] at hmany
            omega
          · rw [hp', hq', heq]
            rfl

/-- A held condition is determined by what its parts come to. -/
theorem eq_of_cond_equates (hb : b.Consistent) (htidy : b.Tidy) (hp : b.Holds p) (hq : b.Holds q)
    (h : op.Equates (p.condParts op) (q.condParts op)) : p = q := by
  have halike := alike_withId_self 0 p
  rw [withId_eq_of_equates hb htidy hb htidy hp hq h] at halike
  exact hb.shared hp hq (alike_trans halike (alike_symm (alike_withId_self 0 q)))

/-- What is decided is a constant. -/
theorem truth?_of_decided (hb : b.Consistent) (hp : b.Holds p) (h : op.Decided (p.condParts op)) :
    p.truth? = some (!op.unit) := by
  cases hv : p.truth? with
  | none => exact absurd h (not_decided_condParts hb hp (truth?_eq_none_iff.mp hv))
  | some v => rwa [condParts_of_truth? hv, decided_singleton, hv] at h

end Term

namespace Build

open Term Connective

variable {op : Connective} {p q : Cond}

theorem truth?_truth (hb : b.Consistent) (v : Bool) : (truth v b).1.truth? = some v :=
  congrArg truth? (intern_eq_withId hb (d := .truth 0 v) trivial)

theorem truth_equates (hb : b.Consistent) {ps : List Cond} (h : op.Decided ps) :
    op.Equates ((truth (!op.unit) b).1.condParts op) ps := by
  have hv := truth?_truth hb (!op.unit)
  refine .of_decided ?_ h
  rw [condParts_of_truth? hv, decided_singleton, hv]

/-- What two conditions come to is what their junction comes to. -/
theorem join_equates (hb : b.Consistent) (htidy : b.Tidy) (hp : b.Holds p) (hq : b.Holds q) (op : Connective) :
    op.Equates ((join op p q b).1.condParts op) (p.condParts op ++ q.condParts op) := by
  have hconst : ∀ {p : Cond} {v : Bool} (qs : List Cond), p.truth? = some v → v ≠ op.unit →
      op.Decided (p.condParts op ++ qs) := by
    intro p v qs hv h
    rw [decided_append, condParts_of_truth? hv, decided_singleton, hv, Option.some_inj]
    exact Or.inl (Bool.eq_not.mpr h)
  unfold join
  cases hv : p.truth? with
  | some v =>
      dsimp only
      split_ifs with h
      · rw [condParts_of_truth? hv]
        exact .unit_append (h ▸ hv) _
      · exact truth_equates hb (hconst _ hv h)
  | none =>
      cases hv' : q.truth? with
      | some v =>
          dsimp only
          split_ifs with h
          · rw [condParts_of_truth? hv']
            refine (Equates.unit_append (h ▸ hv') _).trans (.of_mem_iff fun r => ?_)
            exact List.perm_append_comm.mem_iff
          · exact truth_equates hb (decided_append.mpr (decided_append.mp (hconst (p.condParts op) hv' h)).symm)
      | none =>
          have hheld : ∀ r ∈ p.condParts op ++ q.condParts op, b.Holds r := fun r hr =>
            (List.mem_append.mp hr).elim (fun hr => (hp.condParts hb (truth?_eq_none_iff.mp hv) hr).1)
              fun hr => (hq.condParts hb (truth?_eq_none_iff.mp hv') hr).1
          have hmem : ∀ r, r ∈ sortById (dedup (p.condParts op ++ q.condParts op)) ↔
              r ∈ p.condParts op ++ q.condParts op := fun r => by
            rw [mem_sortById, mem_dedup fun r hr r' hr' h => hb.eq_of_id (hheld r hr) (hheld r' hr') h]
          dsimp only
          generalize sortById (dedup (p.condParts op ++ q.condParts op)) = rs at hmem
          split
          · rename_i r
            have hr := (hmem r).mp (List.mem_singleton_self r)
            have hflat : r.condParts op = [r] :=
              (List.mem_append.mp hr).elim (flat_of_mem_condParts htidy hp) (flat_of_mem_condParts htidy hq)
            change op.Equates (r.condParts op) _
            rw [hflat]
            exact .of_mem_iff hmem
          · have hjunction := intern_eq_withId hb (d := .junction 0 op rs) fun r hr => hheld r ((hmem r).mp hr)
            have hparts : (intern (.junction 0 op rs) b).1.condParts op = rs := by
              rw [hjunction]
              exact if_pos rfl
            rw [hparts]
            exact .of_mem_iff hmem

theorem Runs.of_post {α : Type} {act : Build α} {post post' : α → Builder → Prop} (h : Runs act b post)
    (h' : post' (act b).1 (act b).2) : Runs act b post' :=
  ⟨h.consistent, h.grows, h', h.again⟩

theorem nary_combines (hb : b.Consistent) (htidy : b.Tidy) {x y : Term .word} (hx : b.HoldsAt w x)
    (hy : b.HoldsAt w y) (op : NaryOp) :
    Runs (nary op x y) b fun r c =>
      c.Tidy ∧ c.HoldsAt w r ∧ op.Equates w (r.parts op) (x.parts op ++ y.parts op) := by
  have hrun := nary_runs hb hx hy op
  exact hrun.of_post ⟨nary_tidy hb htidy hx hy op, hrun.post.toHoldsAt, nary_equates hb htidy hx hy op⟩

theorem join_combines (hb : b.Consistent) (htidy : b.Tidy) (hp : b.Holds p) (hq : b.Holds q) (op : Connective) :
    Runs (join op p q) b fun r c =>
      c.Tidy ∧ c.Holds r ∧ op.Equates (r.condParts op) (p.condParts op ++ q.condParts op) := by
  have hrun := join_runs hb hp hq op
  exact hrun.of_post ⟨join_tidy hb htidy hp hq op, hrun.post.held, join_equates hb htidy hp hq op⟩

/-- The operands of a conjunction come to what it comes to. -/
theorem all_equates (hb : b.Consistent) (htidy : b.Tidy) {ps : List Cond} (hps : ∀ p ∈ ps, b.Holds p) :
    Connective.and.Equates ((all ps b).1.condParts .and) (ps.flatMap (condParts .and)) := by
  have hfold : ∀ (ps : List Cond) {b : Builder} {acc : Cond}, b.Consistent → b.Tidy → b.Holds acc →
      (∀ p ∈ ps, b.Holds p) → Connective.and.Equates ((ps.foldlM (join .and) acc b).1.condParts .and)
        (acc.condParts .and ++ ps.flatMap (condParts .and)) := by
    intro ps
    induction ps with
    | nil =>
        intro b acc _ _ _ _
        rw [List.flatMap_nil, List.append_nil]
        exact .of_mem_iff fun _ => Iff.rfl
    | cons p ps ih =>
        intro b acc hb htidy hacc hps
        rw [List.forall_mem_cons] at hps
        have hrun := join_runs hb hacc hps.1 .and
        rw [List.foldlM_cons, bind_apply, List.flatMap_cons, ← List.append_assoc]
        refine (ih hrun.consistent (join_tidy hb htidy hacc hps.1 .and) hrun.post.held fun q hq =>
          (hps.2 q hq).mono hrun.grows).trans ?_
        exact (join_equates hb htidy hacc hps.1 .and).append (.of_mem_iff fun _ => Iff.rfl)
  have hrun := truth_runs hb true []
  have hv := truth?_truth hb true
  refine (hfold ps hrun.consistent (intern_tidy htidy trivial) hrun.post.1.held fun p hp =>
    (hps p hp).mono hrun.grows).trans ?_
  rw [condParts_of_truth? hv]
  exact (Equates.unit_append hv _).symm

end Build

/-! ### Brackets -/

/-- A way to put brackets around operands. -/
inductive Bracketing (α : Type) where
  | operand (a : α)
  | combine (left right : Bracketing α)

namespace Bracketing

variable {α : Type}

/-- The operands, from left to right. -/
def operands : Bracketing α → List α
  | operand a => [a]
  | combine left right => left.operands ++ right.operands

/-- Combines the operands as the brackets say. -/
def run (f : α → α → Build α) : Bracketing α → Build α
  | operand a => pure a
  | combine left right => do f (← left.run f) (← right.run f)

/-- What single combinations make of the operands, in tidy builders, combinations in brackets do. -/
theorem run_runs {f : α → α → Build α} (held : Builder → α → Prop) (comesTo : α → List α → Prop)
    (hmono : ∀ {b c : Builder} {x : α}, b ≤ c → held b x → held c x) (hoperand : ∀ x, comesTo x [x])
    (hf : ∀ {b : Builder} {x y : α} {xs ys : List α}, b.Consistent → b.Tidy → held b x → held b y →
      comesTo x xs → comesTo y ys → Build.Runs (f x y) b fun r c => c.Tidy ∧ held c r ∧ comesTo r (xs ++ ys))
    (t : Bracketing α) : ∀ {b : Builder}, b.Consistent → b.Tidy → (∀ x ∈ t.operands, held b x) →
      Build.Runs (t.run f) b fun r c => c.Tidy ∧ held c r ∧ comesTo r t.operands := by
  induction t with
  | operand a =>
      intro b hb htidy ha
      exact Build.Runs.pure hb ⟨htidy, ha a (List.mem_singleton_self a), hoperand a⟩
  | combine left right ihleft ihright =>
      intro b hb htidy hops
      rw [operands, List.forall_mem_append] at hops
      refine Build.Runs.bind (ihleft hb htidy hops.1) fun x c hle hc hx => ?_
      obtain ⟨htidy', hx, hxs⟩ := hx
      refine Build.Runs.bind (ihright hc htidy' fun y hy => hmono hle (hops.2 y hy)) fun y d hle' hd hy => ?_
      obtain ⟨htidy'', hy, hys⟩ := hy
      exact hf hd htidy'' (hmono hle' hx) hy hxs hys

theorem nary_runs (op : NaryOp) (t : Bracketing (Term .word)) (hb : b.Consistent) (htidy : b.Tidy)
    (ht : ∀ x ∈ t.operands, b.HoldsAt w x) :
    Build.Runs (t.run (Build.nary op)) b fun r c =>
      c.Tidy ∧ c.HoldsAt w r ∧ op.Equates w (r.parts op) (t.operands.flatMap (Term.parts op)) := by
  refine run_runs (fun b => b.HoldsAt w) (fun r xs => op.Equates w (r.parts op) (xs.flatMap (Term.parts op)))
    (fun hle hx => hx.mono hle) (fun x => ?_) (fun hb htidy hx hy hxs hys => ?_) t hb htidy ht
  · rw [List.flatMap_singleton]
    exact .refl op w _
  · rw [List.flatMap_append]
    exact (Build.nary_combines hb htidy hx hy op).imp fun r c _ _ ⟨htidy', hr, hequates⟩ =>
      ⟨htidy', hr, hequates.trans (hxs.append hys)⟩

theorem join_runs (op : Connective) (t : Bracketing Cond) (hb : b.Consistent) (htidy : b.Tidy)
    (ht : ∀ p ∈ t.operands, b.Holds p) :
    Build.Runs (t.run (Build.join op)) b fun r c =>
      c.Tidy ∧ c.Holds r ∧ op.Equates (r.condParts op) (t.operands.flatMap (Term.condParts op)) := by
  refine run_runs (fun b => b.Holds) (fun r ps => op.Equates (r.condParts op) (ps.flatMap (Term.condParts op)))
    (fun hle hp => hp.mono hle) (fun p => ?_) (fun hb htidy hp hq hps hqs => ?_) t hb htidy ht
  · rw [List.flatMap_singleton]
    exact .of_mem_iff fun _ => Iff.rfl
  · rw [List.flatMap_append]
    exact (Build.join_combines hb htidy hp hq op).imp fun r c _ _ ⟨htidy', hr, hequates⟩ =>
      ⟨htidy', hr, hequates.trans (hps.append hqs)⟩

/-- Operands in another order come to the same, and so do operands that are there more than once where that does
not matter. -/
theorem equates_of_operands (op : NaryOp) {xs ys : List (Term .word)}
    (h : xs.Perm ys ∨ (op = .and ∨ op = .or) ∧ ∀ x, x ∈ xs ↔ x ∈ ys) :
    op.Equates w (xs.flatMap (Term.parts op)) (ys.flatMap (Term.parts op)) := by
  rcases h with hperm | ⟨hop, hmem⟩
  · exact .of_perm op w (hperm.flatMap_right _)
  · refine .of_mem_iff hop fun t => ?_
    simp only [List.mem_flatMap, hmem]

variable {t t' : Bracketing (Term .word)} {s s' : Bracketing Cond}

/-- Words combined with other brackets, in a later builder, give the same term. -/
theorem nary_eq (op : NaryOp) (hw : 0 < w) (hb : b.Consistent) (htidy : b.Tidy)
    (ht : ∀ x ∈ t.operands, b.HoldsAt w x)
    (h : t.operands.Perm t'.operands ∨ (op = .and ∨ op = .or) ∧ ∀ x, x ∈ t.operands ↔ x ∈ t'.operands)
    (hc : (t.run (Build.nary op) b).2.Evolves c) :
    (t'.run (Build.nary op) c).1 = (t.run (Build.nary op) b).1 := by
  have hrun := nary_runs op t hb htidy ht
  obtain ⟨htidy', hr, hequates⟩ := hrun.post
  obtain ⟨hc', hle⟩ := hc.runs hrun.consistent
  have hmem : ∀ x ∈ t'.operands, b.HoldsAt w x := fun x hx =>
    ht x (h.elim (fun hperm => hperm.mem_iff.mpr hx) fun hset => (hset.2 x).mpr hx)
  have hrun' := nary_runs op t' hc' (hc.tidy hrun.consistent htidy') fun x hx => (hmem x hx).mono (hrun.grows.trans hle)
  obtain ⟨htidy'', hr', hequates'⟩ := hrun'.post
  exact Term.eq_of_equates hrun'.consistent htidy'' (op.not_absorbs_neutral hw) hr' (hr.mono (hle.trans hrun'.grows))
    (hequates'.trans ((equates_of_operands op h).symm.trans hequates.symm))

/-- Conditions joined with other brackets, in a later builder, give the same condition. -/
theorem join_eq (op : Connective) (hb : b.Consistent) (htidy : b.Tidy) (hs : ∀ p ∈ s.operands, b.Holds p)
    (h : ∀ p, p ∈ s.operands ↔ p ∈ s'.operands) (hc : (s.run (Build.join op) b).2.Evolves c) :
    (s'.run (Build.join op) c).1 = (s.run (Build.join op) b).1 := by
  have hrun := join_runs op s hb htidy hs
  obtain ⟨htidy', hr, hequates⟩ := hrun.post
  obtain ⟨hc', hle⟩ := hc.runs hrun.consistent
  have hrun' := join_runs op s' hc' (hc.tidy hrun.consistent htidy') fun p hp =>
    (hs p ((h p).mpr hp)).mono (hrun.grows.trans hle)
  obtain ⟨htidy'', hr', hequates'⟩ := hrun'.post
  have hmem : op.Equates (s'.operands.flatMap (Term.condParts op)) (s.operands.flatMap (Term.condParts op)) :=
    .of_mem_iff fun p => by simp only [List.mem_flatMap, h]
  exact Term.eq_of_cond_equates hrun'.consistent htidy'' hr' (hr.mono (hle.trans hrun'.grows))
    (hequates'.trans (hmem.trans hequates.symm))

end Bracketing

/-! ### Constraints -/

theorem Term.text_withId {k : Ty} (n : Nat) (t : Term k) : (t.withId n).text = t.text := by
  cases t <;> rfl

namespace Solver

variable {σ : Type} {s s' : Solver σ} {k : Ty} {t : Term k}

/-- Conjunctions of the same conditions have one text. -/
theorem text_all (hb : b.Consistent) (htidy : b.Tidy) {ps qs : List Cond} (hps : ∀ p ∈ ps, b.Holds p)
    (h : ∀ p, p ∈ ps ↔ p ∈ qs) : (Build.all ps b).1.text = (Build.all qs b).1.text := by
  have hqs : ∀ q ∈ qs, b.Holds q := fun q hq => hps q ((h q).mpr hq)
  have hrun := Request.all_runs hb hps
  have hrun' := Request.all_runs hb hqs
  have hmem : Connective.and.Equates (ps.flatMap (Term.condParts .and)) (qs.flatMap (Term.condParts .and)) :=
    .of_mem_iff fun p => by simp only [List.mem_flatMap, h]
  have hequates := (Build.all_equates hb htidy hps).trans (hmem.trans (Build.all_equates hb htidy hqs).symm)
  rw [← Term.text_withId 0, Term.withId_eq_of_equates hrun.consistent (Build.all_tidy hb htidy hps)
    hrun'.consistent (Build.all_tidy hb htidy hqs) hrun.post.held hrun'.post.held hequates, Term.text_withId]

/-- What links lead to depends on the set of the constraints. -/
theorem reached_subset (hs : s.Indexed b) (hs' : s'.Indexed b) (h : ∀ p, p ∈ s.constraints ↔ p ∈ s'.constraints) :
    ∀ i ∈ s.reached t, i ∈ s'.reached t := by
  refine SymbolIndex.forall_mem_search (fun i j hi hj => ?_) (fun _ hi => absurd hi List.not_mem_nil) fun i hi =>
    (SymbolIndex.subset_search _ _ _).2 hi
  by_cases hij : i = j
  · exact hij ▸ hi
  · obtain ⟨d, hd, hmem, hmem'⟩ := (hs.index.linked hij).mp hj
    exact symbols_subset_reached hs' ((h d).mp hd) hmem hi hmem'

/-- Which constraints are related to a term depends on the set of the constraints. -/
theorem related_subset (hb : b.Consistent) (hs : s.Indexed b) (hs' : s'.Indexed b)
    (h : ∀ p, p ∈ s.constraints ↔ p ∈ s'.constraints) : ∀ p ∈ s.related t, p ∈ s'.related t := by
  intro p hp
  obtain ⟨i, hi, hreached⟩ := exists_reached_of_related hb hs hp
  exact mem_related_of_reached hs' ((h p).mp (mem_related.mp hp).1) hi (reached_subset hs hs' h i hreached)

/-- The slice is the conjunction of the related constraints, or false if one of the constraints is. -/
theorem text_slice (hb : b.Consistent) (htidy : b.Tidy) (hs : s.Indexed b) (t : Term k) :
    (s.slice t b).1.text = if s.refuted then (Term.truth 0 false).text else (Build.all (s.related t) b).1.text := by
  have hrelated : ∀ d ∈ s.related t, b.Holds d := fun d hd => hs.held d (mem_related.mp hd).1
  have hall := Request.all_runs hb hrelated
  have htidy' : (Build.all (s.related t) b).2.Tidy := Build.all_tidy hb htidy hrelated
  have hfalse := Build.truth_runs hall.consistent false []
  have hvalue := Build.truth?_truth hall.consistent false
  unfold slice
  rw [Build.bind_apply, Build.bind_apply,
    any_id_eq_refuted hfalse.consistent (hs.mono (hall.grows.trans hfalse.grows)) hfalse.post.1.held hvalue]
  split_ifs
  · have hslice := hall.post.held.mono hfalse.grows
    have hjoin := Build.join_runs hfalse.consistent hslice hfalse.post.1.held .and
    have hequates := Build.join_equates hfalse.consistent (Build.intern_tidy htidy' trivial) hslice
      hfalse.post.1.held .and
    have hdecided := hequates.decided.mpr (Connective.decided_append.mpr (Or.inr ?_))
    · rw [Term.eq_truth_of_truth? (Term.truth?_of_decided hjoin.consistent hjoin.post.held hdecided)]
      rfl
    · rw [Term.condParts_of_truth? hvalue, Connective.decided_singleton, hvalue]
      rfl
  · rfl

end Solver

/-- Combining words of one width, or joining conditions, has one result: whatever the order of the operands and
the brackets around them, the answers of a builder have the same number. Where the operation is a conjunction or
disjunction, of bits or of conditions, it does not matter either how often an operand is there. So the texts of the
conjunction of a solver's constraints, and of those that matter to a term, do not depend on the order in which the
constraints, and the entries of their index, are listed. -/
theorem combinations_are_canonical {scatter : List Nat → Nat} {b : Builder} (hb : Evolves { scatter } b) :
    (∀ (op : NaryOp) (w : Nat), 0 < w → ∀ t t' : Bracketing (Term .word), (∀ x ∈ t.operands, b.HoldsAt w x) →
      (t.operands.Perm t'.operands ∨ (op = .and ∨ op = .or) ∧ ∀ x, x ∈ t.operands ↔ x ∈ t'.operands) →
      ∀ c, (t.run (Build.nary op) b).2.Evolves c →
        (t'.run (Build.nary op) c).1.id = (t.run (Build.nary op) b).1.id) ∧
    (∀ (op : Connective) (t t' : Bracketing Cond), (∀ p ∈ t.operands, b.Holds p) →
      (∀ p, p ∈ t.operands ↔ p ∈ t'.operands) →
      ∀ c, (t.run (Build.join op) b).2.Evolves c →
        (t'.run (Build.join op) c).1.id = (t.run (Build.join op) b).1.id) ∧
    ∀ (σ : Type) (s s' : Solver σ), s.Indexed b → s'.Indexed b → s.constraints.Perm s'.constraints →
      (s.conjunction b).1.text = (s'.conjunction b).1.text ∧
      ∀ (k : Ty) (t : Term k), (s.slice t b).1.text = (s'.slice t b).1.text := by
  have htidy := hb.tidy Builder.consistent_empty Builder.tidy_empty
  have hb := hb.consistent
  refine ⟨fun op w hw t t' ht h c hc => ?_, fun op t t' ht h c hc => ?_, fun σ s s' hs hs' h => ⟨?_, fun k t => ?_⟩⟩
  · rw [Bracketing.nary_eq op hw hb htidy ht h hc]
  · rw [Bracketing.join_eq op hb htidy ht h hc]
  · exact Solver.text_all hb htidy hs.held fun p => h.mem_iff
  · have hmem : ∀ p, p ∈ s.related t ↔ p ∈ s'.related t := fun p =>
      ⟨Solver.related_subset hb hs hs' (fun p => h.mem_iff) p,
        Solver.related_subset hb hs' hs (fun p => h.mem_iff.symm) p⟩
    have hrefuted : s.refuted = s'.refuted := h.any_eq
    rw [Solver.text_slice hb htidy hs, Solver.text_slice hb htidy hs', hrefuted]
    split_ifs
    · rfl
    · exact Solver.text_all hb htidy (fun p hp => hs.held p (Solver.mem_related.mp hp).1) hmem

/-- A sum with other brackets, a condition joined with itself, and two constraints added in both orders, in a
builder whose fingerprints all collide. -/
theorem combinations_are_canonical_of_collisions :
    let x : Term .word := .symbol 1 "x" 8
    let y : Term .word := .symbol 2 "y" 8
    let p : Cond := .compare 3 .slt x y
    let q : Cond := .compare 4 .slt y x
    let b₁ := ((Request.symbol "x" 8).run { scatter := fun _ => 0 }).2
    let b₂ := ((Request.symbol "y" 8).run b₁).2
    let b₃ := ((Request.compare .slt x y).run b₂).2
    let b := ((Request.compare .slt y x).run b₃).2
    let t : Bracketing (Term .word) := .combine (.combine (.operand x) (.operand y)) (.operand x)
    let t' : Bracketing (Term .word) := .combine (.operand x) (.combine (.operand x) (.operand y))
    let s : Solver Unit := (({ backend := () } : Solver Unit).add p).add q
    let s' : Solver Unit := (({ backend := () } : Solver Unit).add q).add p
    Evolves { scatter := fun _ => 0 } b ∧ t.operands.Perm t'.operands ∧ s.constraints.Perm s'.constraints ∧
      (t'.run (Build.nary .add) (t.run (Build.nary .add) b).2).1.id = (t.run (Build.nary .add) b).1.id ∧
      ((Bracketing.combine (.operand p) (.operand p)).run (Build.join .or) b).1.id = p.id ∧
      (s.conjunction b).1.text = (s'.conjunction b).1.text ∧ (s.slice x b).1.text = (s'.slice x b).1.text := by
  intro x y p q b₁ b₂ b₃ b t t' s s'
  have h₁ : Evolves { scatter := fun _ => 0 } b₁ := Evolves.refl.request (.symbol "x" 8) trivial
  have h₂ : Evolves { scatter := fun _ => 0 } b₂ := h₁.request (.symbol "y" 8) trivial
  have hx₁ : b₁.Holds x := Request.holds_of_run consistent_empty trivial trivial rfl
  have hx₂ : b₂.Holds x := hx₁.mono (Request.runs h₁.consistent (.symbol "y" 8) trivial).grows
  have hy₂ : b₂.Holds y := Request.holds_of_run h₁.consistent trivial trivial rfl
  have h₃ : Evolves { scatter := fun _ => 0 } b₃ := h₂.request (.compare .slt x y) ⟨hx₂, hy₂⟩
  have hle₃ : b₂ ≤ b₃ := (Request.runs h₂.consistent (.compare .slt x y) ⟨hx₂, hy₂⟩).grows
  have hp₃ : b₃.Holds p := Request.holds_of_run h₂.consistent ⟨hx₂, hy₂⟩ rfl rfl
  have hyx : (Request.compare .slt y x).Operands b₃.Holds := ⟨hy₂.mono hle₃, hx₂.mono hle₃⟩
  have hb : Evolves { scatter := fun _ => 0 } b := h₃.request (.compare .slt y x) hyx
  have hle : b₃ ≤ b := (Request.runs h₃.consistent (.compare .slt y x) hyx).grows
  have hp : b.Holds p := hp₃.mono hle
  have hq : b.Holds q := Request.holds_of_run h₃.consistent hyx rfl rfl
  have hx : b.HoldsAt 8 x := ⟨hx₂.mono (hle₃.trans hle), rfl⟩
  have hy : b.HoldsAt 8 y := ⟨hy₂.mono (hle₃.trans hle), rfl⟩
  obtain ⟨hwords, hconds, hsolvers⟩ := combinations_are_canonical hb
  have hoperands : t.operands.Perm t'.operands := (List.Perm.swap x y []).cons x
  have hconstraints : s.constraints.Perm s'.constraints := List.Perm.swap q p []
  have hs : s.Indexed b := ((Solver.indexed_fresh ()).add hp).add hq
  have hs' : s'.Indexed b := ((Solver.indexed_fresh ()).add hq).add hp
  have hsum := hwords .add 8 (by decide) t t' (by simp [t, Bracketing.operands, hx, hy]) (Or.inl hoperands) _ .refl
  have htwice := hconds .or (.operand p) (.combine (.operand p) (.operand p))
    (by simp [Bracketing.operands, hp]) (by simp [Bracketing.operands]) b .refl
  obtain ⟨hconjunction, hslice⟩ := hsolvers Unit s s' hs hs' hconstraints
  exact ⟨hb, hoperands, hconstraints, hsum, htwice, hconjunction, hslice .word x⟩

/-! ### Two symbols -/

/-- A builder whose fingerprints all collide, with two symbols. -/
def Builder.twoSymbols : Builder :=
  ((Request.symbol "y" 8).run ((Request.symbol "x" 8).run { scatter := fun _ => 0 }).2).2

theorem Builder.twoSymbols_spec : Evolves { scatter := fun _ => 0 } twoSymbols ∧
    twoSymbols.Holds (.symbol 1 "x" 8 : Term .word) ∧ twoSymbols.Holds (.symbol 2 "y" 8 : Term .word) := by
  have h : Evolves { scatter := fun _ => 0 } ((Request.symbol "x" 8).run { scatter := fun _ => 0 }).2 :=
    Evolves.refl.request (.symbol "x" 8) trivial
  have hx : ((Request.symbol "x" 8).run { scatter := fun _ => 0 }).2.Holds (.symbol 1 "x" 8 : Term .word) :=
    Request.holds_of_run consistent_empty trivial trivial rfl
  have hy : twoSymbols.Holds (.symbol 2 "y" 8 : Term .word) :=
    Request.holds_of_run h.consistent trivial trivial rfl
  exact ⟨h.request (.symbol "y" 8) trivial, hx.mono (Request.runs h.consistent (.symbol "y" 8) trivial).grows, hy⟩

end Pathwise
