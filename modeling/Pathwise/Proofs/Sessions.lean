import Pathwise.Exploration
import Pathwise.Proofs.Inputs
import Pathwise.Proofs.Recording

/-! Sessions of the engine. What a computation of the engine does is said by `Engine.Ensures`: from a given
session it fails for an allowed reason, or ends with a property. The executions that were reported are read
off the events, and a valid oracle is one whose answers can be relied on. -/

namespace Pathwise

open Builder

variable {σ : Type}

/-! ### Sessions -/

/-- The inputs and the trace of a reported execution. -/
def Event.recorded? : Event → Option (Assignments × Trace)
  | .execution e => some (e.inputs, e.trace)
  | _ => none

/-- The reported executions, in order. -/
def Session.recorded (s : Session σ) : List (Assignments × Trace) := s.events.filterMap Event.recorded?

def Event.outcome? : Event → Option QueryOutcome
  | .query _ outcome => some outcome
  | .execution _ | .constraint _ | .verdict _ => none

/-- How the questions to the oracle ended, in order. -/
def Session.outcomes (s : Session σ) : List QueryOutcome := s.events.filterMap Event.outcome?

namespace Engine

section

variable {α β : Type} {act : Engine σ α} {next : α → Engine σ β} {s : Session σ} {fails : CallError → Prop}
  {mid : α → Session σ → Prop} {post : β → Session σ → Prop}

/-- The computation fails for a reason that is allowed, or ends as it should. -/
def Ensures (act : Engine σ α) (s : Session σ) (fails : CallError → Prop) (post : α → Session σ → Prop) : Prop :=
  (∀ err s', act s = (.error err, s') → fails err) ∧ ∀ a s', act s = (.ok a, s') → post a s'

theorem ensures_of_eq {a : α} {s' : Session σ} (h : act s = (.ok a, s')) (hmid : mid a s') :
    Ensures act s fails mid := by
  constructor
  · intro err s'' heq
    rw [h] at heq
    cases heq
  · intro a' s'' heq
    rw [h] at heq
    cases heq
    exact hmid

/-- What a computation returns, seen by running it. -/
theorem exists_of_any {p : α → Prop} [DecidablePred p] (h : (act s).1.toOption.any (decide <| p ·) = true) :
    ∃ a s', act s = (.ok a, s') ∧ p a := by
  rcases hact : act s with ⟨err | a, s'⟩
  · rw [hact] at h
    cases h
  · rw [hact] at h
    exact ⟨a, s', rfl, of_decide_eq_true h⟩

theorem ensures_of_error {err : CallError} {s' : Session σ} (h : act s = (.error err, s')) (hfails : fails err) :
    Ensures act s fails mid := by
  constructor
  · intro err' s'' heq
    rw [h] at heq
    cases heq
    exact hfails
  · intro a s'' heq
    rw [h] at heq
    cases heq

theorem Ensures.bind (h : Ensures act s fails mid) (hnext : ∀ a s', mid a s' → Ensures (next a) s' fails post) :
    Ensures (act >>= next) s fails post := by
  rcases hact : act s with ⟨err | a, s'⟩
  · exact ensures_of_error (bind_of_error hact) (h.1 err s' hact)
  · unfold Ensures
    rw [bind_of_ok hact]
    exact hnext a s' (h.2 a s' hact)

end

theorem ask_eq (o : Oracle σ) (kind : QueryKind) (q : Query) (s : Session σ) :
    ∃ a s', ask o kind q s = (.ok a, s') ∧ s'.events = s.events ++ [.query kind (.ofAnswer a)] ∧
      s'.world = { s.world with builder := (o.ask q s.oracle s.world.builder).2 } :=
  ⟨_, _, rfl, rfl, rfl⟩

theorem outcomes_ask {o : Oracle σ} {kind : QueryKind} {q : Query} {s s' : Session σ} {a : Answer}
    (h : ask o kind q s = (.ok a, s')) : s'.outcomes = s.outcomes ++ [.ofAnswer a] := by
  obtain ⟨a', s'', heq, hevents, -⟩ := ask_eq o kind q s
  rw [heq] at h
  cases h
  rw [Session.outcomes, hevents, List.filterMap_append]
  rfl

theorem emit_created (tree : ConstraintTree) (created : List Nat) (s : Session σ) :
    ∃ s', (forIn created PUnit.unit fun i _ => do
        if let some n := tree.nodes[i]? then
          Engine.emit (.constraint n)
        return ForInStep.yield PUnit.unit : Engine σ PUnit) s = (.ok ⟨⟩, s') ∧
      s'.world = s.world ∧ s'.oracle = s.oracle ∧ s'.recorded = s.recorded ∧ s'.outcomes = s.outcomes := by
  induction created generalizing s with
  | nil => exact ⟨s, rfl, rfl, rfl, rfl, rfl⟩
  | cons i created ih =>
      cases hn : tree.nodes[i]? with
      | none =>
          obtain ⟨s', hs', hrest⟩ := ih s
          refine ⟨s', ?_, hrest⟩
          rw [List.forIn_cons, hn]
          exact hs'
      | some n =>
          obtain ⟨s', hs', hworld, horacle, hrec, hout⟩ := ih { s with events := s.events ++ [.constraint n] }
          refine ⟨s', ?_, hworld, horacle, ?_, ?_⟩
          · rw [List.forIn_cons, hn]
            exact hs'
          · rw [hrec]
            simp [Session.recorded, Event.recorded?]
          · rw [hout]
            simp [Session.outcomes, Event.outcome?]

end Engine

/-! ### Valid oracles -/

/-- The answer may be relied on: what it refuses no valuation satisfies, and its model, applied to any inputs
that satisfy the asserts, gives inputs that satisfy the asserts and not the query. -/
structure Answer.Valid (a : Answer) (asserts : Trace) (query : Predicate) : Prop where
  unsat : a = .ok none → ∀ ρ, asserts.HoldsFor ρ → ¬query.flip.HoldsFor ρ
  sat : ∀ m, a = .ok (some m) → ∀ inputs : InputMap, (∀ d ∈ query :: asserts, d.cond.free ⊆ inputs.symbols) →
    asserts.HoldsFor inputs.valuation →
      Trace.HoldsFor (inputs.applyModel m).valuation asserts ∧ query.flip.HoldsFor (inputs.applyModel m).valuation

/-- In every good state the oracle gives valid answers, stays in a good state, and does to the builder what
building terms does. -/
def Oracle.Valid (o : Oracle σ) (good : σ → Prop) : Prop :=
  ∀ (s : σ) (b : Builder) (names : List (String × Nat)) (asserts : Trace) (query : Predicate),
    good s → b.Consistent → asserts.Formed b names → query.Formed b names →
    let out := o.ask (.counterexample asserts query) s b
    out.1.1.Valid asserts query ∧ good out.1.2 ∧ out.2.Consistent ∧ b ≤ out.2

end Pathwise
