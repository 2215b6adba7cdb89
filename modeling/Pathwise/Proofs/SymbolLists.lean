import Mathlib.Data.String.Basic
import Mathlib.Logic.Function.Iterate
import Pathwise.Proofs.FreeSymbols
import Pathwise.Proofs.Substitution

/-! The list of a term's symbols is exact. The walk that collects them can be done with a stack: one step takes the
next term from it and, unless the term's number was visited before, puts the terms below on it. From every term the
steps empty the stack, and they do what the recursive walk does, so what one step keeps holds of the walk's end: no
number is found twice. In a consistent builder a symbol has one number, hence every symbol that occurs in a held term is
listed once, and nothing else is. Neither the meaning of the term nor its evaluation looks at any other symbol. -/

namespace Pathwise

open Builder

variable {k : Ty}

/-! ### The walk with a stack -/

/-- A walk under way: what it has seen, and the stack of terms that it has to look at, the next one first. -/
structure Search where
  walk : Walk := {}
  stack : List (Σ k, Term k)

namespace Search

/-- Takes the next term from the stack. If it is new it is entered, and the terms below it go on the stack one after the
other, so that the last of them is next. -/
def step (s : Search) : Search :=
  match s.stack with
  | [] => s
  | t :: rest =>
    if s.walk.visited.contains t.2.id then { s with stack := rest }
    else ⟨s.walk.enter t.2, t.2.subterms.reverse ++ rest⟩

theorem step_of_visited {w : Walk} {t : Σ k, Term k} {rest : List (Σ k, Term k)}
    (h : w.visited.contains t.2.id = true) : step ⟨w, t :: rest⟩ = ⟨w, rest⟩ := if_pos h

theorem step_of_new {w : Walk} {t : Σ k, Term k} {rest : List (Σ k, Term k)}
    (h : ¬w.visited.contains t.2.id = true) : step ⟨w, t :: rest⟩ = ⟨w.enter t.2, t.2.subterms.reverse ++ rest⟩ :=
  if_neg h

/-- Some number of steps leads from one search to the other. -/
def Reaches (s s' : Search) : Prop := ∃ n, step^[n] s = s'

theorem Reaches.refl (s : Search) : s.Reaches s := ⟨0, rfl⟩

theorem Reaches.head {s s' : Search} (h : s.step.Reaches s') : s.Reaches s' := by
  obtain ⟨n, rfl⟩ := h
  exact ⟨n + 1, Function.iterate_succ_apply step n s⟩

theorem Reaches.trans {s s' s'' : Search} (h : s.Reaches s') (h' : s'.Reaches s'') : s.Reaches s'' := by
  obtain ⟨n, rfl⟩ := h
  obtain ⟨n', rfl⟩ := h'
  exact ⟨n' + n, Function.iterate_add_apply step n' n s⟩

/-- If the steps take each of some terms from the stack and walk through it, they do so with all of them. -/
theorem reaches_through {ts : List (Σ k, Term k)}
    (h : ∀ t ∈ ts, ∀ w rest, Reaches ⟨w, t :: rest⟩ ⟨t.2.visit w, rest⟩) (w : Walk) (rest : List (Σ k, Term k)) :
    Reaches ⟨w, ts.reverse ++ rest⟩ ⟨w.through ts, rest⟩ := by
  induction ts generalizing rest with
  | nil => exact .refl _
  | cons t ts ih =>
      -- The first term lies below the others, and the walk goes through it last.
      rw [List.forall_mem_cons] at h
      rw [List.reverse_cons, List.append_assoc]
      exact (ih h.2 (t :: rest)).trans (h.1 _ rest)

/-- The steps take a term from the stack and walk through it. -/
theorem reaches_visit (t : Term k) : ∀ w rest, Reaches ⟨w, ⟨k, t⟩ :: rest⟩ ⟨t.visit w, rest⟩ := by
  induction t using Term.induct_children with
  | h t ih =>
      intro w rest
      apply Reaches.head
      by_cases hvisited : w.visited.contains t.id = true
      · rw [step_of_visited hvisited, Term.visit_of_visited hvisited]
        exact .refl _
      · rw [step_of_new hvisited, Term.visit_of_new hvisited]
        exact reaches_through (Term.forall_mem_subterms ih) _ rest

end Search

/-! ### No symbol is found twice -/

/-- The symbols found so far have different numbers, which are visited. -/
structure Walk.Distinct (w : Walk) : Prop where
  ids : (w.found.map (·.id)).Nodup
  visited : ∀ s ∈ w.found, w.visited.contains s.id = true

theorem Walk.Distinct.enter {w : Walk} (h : w.Distinct) {t : Term k} (hnew : ¬w.visited.contains t.id = true) :
    (w.enter t).Distinct := by
  have hkept : ∀ s ∈ w.found, (w.enter t).visited.contains s.id = true := fun s hs =>
    contains_enter.mpr (Or.inr (h.visited s hs))
  cases hsymbol : t.symbol? with
  | none =>
      have hfound : (w.enter t).found = w.found := by
        rw [Walk.enter, hsymbol]
        rfl
      constructor
      · rw [hfound]
        exact h.ids
      · rw [hfound]
        exact hkept
  | some s =>
      cases Term.eq_term_of_symbol? hsymbol
      refine ⟨List.nodup_cons.mpr ⟨fun hmem => ?_, h.ids⟩, List.forall_mem_cons.mpr ⟨?_, hkept⟩⟩
      · obtain ⟨u, hu, heq⟩ := List.mem_map.mp hmem
        have heq : u.id = s.term.id := heq
        exact hnew (heq ▸ h.visited u hu)
      · exact contains_enter.mpr (Or.inl rfl)

theorem Search.distinct_step {s : Search} (h : s.walk.Distinct) : s.step.walk.Distinct := by
  unfold step
  split
  · exact h
  · split_ifs with hvisited
    · exact h
    · exact h.enter hvisited

theorem Search.Reaches.distinct {s s' : Search} (h : s.Reaches s') (hs : s.walk.Distinct) : s'.walk.Distinct := by
  obtain ⟨n, rfl⟩ := h
  exact Function.Iterate.rec (fun s : Search => s.walk.Distinct) hs (fun _ => distinct_step) n

theorem Term.distinct_visit (t : Term k) : (t.visit {}).Distinct :=
  (Search.reaches_visit t {} []).distinct ⟨List.nodup_nil, List.forall_mem_nil _⟩

/-! ### The list -/

namespace Term

theorem symbols_sorted (t : Term k) : t.symbols.Pairwise fun s s' => s.name ≤ s'.name := by
  have : Std.Total fun s s' : Symbol => s.name ≤ s'.name := ⟨fun s s' => le_total s.name s'.name⟩
  have : IsTrans Symbol fun s s' => s.name ≤ s'.name := ⟨fun _ _ _ => le_trans⟩
  rw [symbols_eq_insertionSort]
  exact List.pairwise_insertionSort _ _

/-- No name is listed twice with one width. -/
theorem symbols_nodup {b : Builder} (hb : b.Consistent) {t : Term k} (ht : b.Holds t) :
    (t.symbols.map Symbol.sort).Nodup := by
  have hsymbols : t.symbols.Nodup := (symbols_perm t).nodup_iff.mpr (List.Nodup.of_map _ t.distinct_visit.ids)
  refine hsymbols.map_on fun s hs s' hs' h => ?_
  exact hb.eq_of_sort (held_of_mem_symbols hb ht hs).1 (held_of_mem_symbols hb ht hs').1 h

theorem mem_symbol_sorts {b : Builder} (hb : b.Consistent) {t : Term k} (ht : b.Holds t) {x : String × Nat} :
    x ∈ t.symbols.map Symbol.sort ↔ x ∈ t.free := by
  rw [List.mem_map]
  constructor
  · rintro ⟨s, hs, rfl⟩
    exact (held_of_mem_symbols hb ht hs).2
  · exact exists_mem_symbols hb ht

/-! ### Values depend on the listed symbols only -/

theorem value_congr {b : Builder} (hb : b.Consistent) {t : Term k} (ht : b.Holds t) {ρ σ : Valuation}
    (h : ρ.Agree σ t.free) : t.value ρ = t.value σ := by
  have hsteady := steady hb t ht h
  cases k with
  | word => exact congrArg (fun x : BitVec t.width => Word.ofNat t.width x.toNat) hsteady
  | bool => exact hsteady

variable {m m' : Model}

theorem evalParts_congr {op : NaryOp} {ts : List (Term .word)} (h : ∀ t ∈ ts, t.evalM m = t.evalM m')
    (acc : Term .word) : evalParts m op acc ts = evalParts m' op acc ts := by
  induction ts generalizing acc with
  | nil => rfl
  | cons t ts ih =>
      rw [List.forall_mem_cons] at h
      simp only [evalParts, h.1, ih h.2]

theorem evalConds_congr {op : Connective} {ps : List Cond} (h : ∀ p ∈ ps, p.evalM m = p.evalM m')
    (acc : Cond) : evalConds m op acc ps = evalConds m' op acc ps := by
  induction ps generalizing acc with
  | nil => rfl
  | cons p ps ih =>
      rw [List.forall_mem_cons] at h
      simp only [evalConds, h.1, ih h.2]

/-- Models that bind the free symbols alike lead to the same evaluation, with all that it interns and keeps. -/
theorem evalM_congr (t : Term k) (h : ∀ x ∈ t.free, m.find? x.1 = m'.find? x.1) : t.evalM m = t.evalM m' := by
  induction t using Term.induct with
  | symbol i name width =>
      have hname := h (name, width) (List.mem_singleton.mpr rfl)
      simp only [evalM, hname]
  | const | truth => rw [evalM, evalM]
  | ite i cond yes no hcond hyes hno =>
      rw [free, List.forall_mem_append, List.forall_mem_append] at h
      rw [evalM, evalM, hcond h.1.1, hyes h.1.2, hno h.2]
  | unary i op arg ih => rw [evalM, evalM, ih h]
  | binary i op left right hleft hright =>
      rw [free, List.forall_mem_append] at h
      rw [evalM, evalM, hleft h.1, hright h.2]
  | nary i op args ih =>
      have hargs : ∀ t ∈ args, t.evalM m = t.evalM m' := fun t ht =>
        ih t ht fun x hx => h x (mem_freeWords.mpr ⟨t, ht, hx⟩)
      cases args with
      | nil => rw [evalM, evalM]
      | cons t ts =>
          rw [List.forall_mem_cons] at hargs
          simp only [evalM, hargs.1, evalParts_congr hargs.2]
  | not i arg ih => rw [evalM, evalM, ih h]
  | compare i op left right hleft hright =>
      rw [free, List.forall_mem_append] at h
      rw [evalM, evalM, hleft h.1, hright h.2]
  | junction i op args ih =>
      have hargs : ∀ p ∈ args, p.evalM m = p.evalM m' := fun p hp =>
        ih p hp fun x hx => h x (mem_freeConds.mpr ⟨p, hp, hx⟩)
      simp only [evalM, evalConds_congr hargs]

end Term

theorem Build.eval_congr {m m' : Model} {t : Term k} (h : ∀ x ∈ t.free, m.find? x.1 = m'.find? x.1) (b : Builder) :
    eval m t b = eval m' t b ∧ evalValue m t b = evalValue m' t b := by
  have heval : eval m t = eval m' t := by
    unfold eval
    rw [t.evalM_congr h]
  refine ⟨congrFun heval b, ?_⟩
  cases k with
  | word =>
      have hword : evalWord m t = evalWord m' t := by
        unfold evalWord
        rw [heval]
      exact congrFun hword b
  | bool =>
      have hbool : evalBool m t = evalBool m' t := by
        unfold evalBool
        rw [heval]
      exact congrFun hbool b

/-- In every builder that requests and evaluations lead to, the search for the symbols of an interned term ends, and
what it finds is listed by name: each symbol that occurs in the term once, as it is interned, and nothing else. Under
valuations that agree on the listed symbols the term has one value, and models that bind them alike lead to one
evaluation of it. -/
theorem symbol_lists_are_exact {scatter : List Nat → Nat} {b : Builder} (hb : Evolves { scatter } b) {t : Term k}
    (ht : b.Holds t) :
    (∃ n w, Search.step^[n] { stack := [⟨k, t⟩] } = ⟨w, []⟩ ∧ t.symbols.Perm w.found) ∧
      (t.symbols.map fun s => (s.name, s.width)).Nodup ∧
      (∀ name width, (name, width) ∈ (t.symbols.map fun s => (s.name, s.width)) ↔ (name, width) ∈ t.free) ∧
      (∀ s ∈ t.symbols, b.Holds (.symbol s.id s.name s.width)) ∧
      (t.symbols.Pairwise fun s s' => s.name ≤ s'.name) ∧
      (∀ ρ σ : Valuation, (∀ s ∈ t.symbols, ρ s.name s.width = σ s.name s.width) → t.value ρ = t.value σ) ∧
      ∀ m m' : Model, (∀ s ∈ t.symbols, m.find? s.name = m'.find? s.name) →
        Build.eval m t b = Build.eval m' t b ∧ Build.evalValue m t b = Build.evalValue m' t b := by
  have hc := hb.consistent
  have hagree : ∀ {P : String × Nat → Prop}, (∀ s ∈ t.symbols, P s.sort) → ∀ x ∈ t.free, P x := by
    intro P h x hx
    obtain ⟨s, hs, rfl⟩ := Term.exists_mem_symbols hc ht hx
    exact h s hs
  refine ⟨?_, Term.symbols_nodup hc ht, fun name width => Term.mem_symbol_sorts hc ht,
    fun s hs => (Term.held_of_mem_symbols hc ht hs).1, t.symbols_sorted, fun ρ σ h => ?_, fun m m' h => ?_⟩
  · obtain ⟨n, hn⟩ := Search.reaches_visit t {} []
    exact ⟨n, _, hn, t.symbols_perm⟩
  · exact Term.value_congr hc ht (hagree h)
  · exact Build.eval_congr (hagree h) b

/-- A choice whose guard compares two symbols, one of which occurs nowhere else, while the other is shared, in a
builder whose fingerprints all collide. Models that differ in a third symbol give it one value. -/
theorem symbol_lists_are_exact_of_choice :
    let y : Term .word := .symbol 1 "y" 8
    let x : Term .word := .symbol 2 "x" 8
    let zero : Term .word := .const 3 (.ofInt 8 0)
    let p : Cond := .compare 4 .slt y x
    let t : Term .word := .ite 5 p x zero
    let b₁ := ((Request.symbol "y" 8).run { scatter := fun _ => 0 }).2
    let b₂ := ((Request.symbol "x" 8).run b₁).2
    let b₃ := ((Request.int 0 8).run b₂).2
    let b₄ := ((Request.compare .slt y x).run b₃).2
    let b := ((Request.ite p x zero).run b₄).2
    let m : Model := ⟨[("x", .ofInt 8 7), ("y", .ofInt 8 (-1))]⟩
    let m' : Model := ⟨[("y", .ofInt 8 (-1)), ("z", .ofInt 8 3), ("x", .ofInt 8 7)]⟩
    Evolves { scatter := fun _ => 0 } b ∧ b.Holds t ∧ t.symbols = [⟨2, "x", 8⟩, ⟨1, "y", 8⟩] ∧
      (t.symbols.map fun s => (s.name, s.width)).Nodup ∧ ("y", 8) ∈ t.free ∧ ("z", 8) ∉ t.free ∧
      Build.evalValue m t b = Build.evalValue m' t b := by
  intro y x zero p t b₁ b₂ b₃ b₄ b m m'
  have h₁ : Evolves { scatter := fun _ => 0 } b₁ := Evolves.refl.request (.symbol "y" 8) trivial
  have h₂ : Evolves { scatter := fun _ => 0 } b₂ := h₁.request (.symbol "x" 8) trivial
  have h₃ : Evolves { scatter := fun _ => 0 } b₃ := h₂.request (.int 0 8) trivial
  have hle₂ : b₁ ≤ b₂ := (Request.runs h₁.consistent (.symbol "x" 8) trivial).grows
  have hle₃ : b₂ ≤ b₃ := (Request.runs h₂.consistent (.int 0 8) trivial).grows
  have hy₁ : b₁.Holds y := Request.holds_of_run consistent_empty trivial trivial rfl
  have hx₂ : b₂.Holds x := Request.holds_of_run h₁.consistent trivial trivial rfl
  have hzero₃ : b₃.Holds zero := Request.holds_of_run h₂.consistent trivial trivial rfl
  have hyx : (Request.compare .slt y x).Operands b₃.Holds := ⟨hy₁.mono (hle₂.trans hle₃), hx₂.mono hle₃⟩
  have h₄ : Evolves { scatter := fun _ => 0 } b₄ := h₃.request (.compare .slt y x) hyx
  have hle₄ : b₃ ≤ b₄ := (Request.runs h₃.consistent (.compare .slt y x) hyx).grows
  have hp₄ : b₄.Holds p := Request.holds_of_run h₃.consistent hyx rfl rfl
  have hchoice : (Request.ite p x zero).Operands b₄.Holds := ⟨hp₄, hyx.2.mono hle₄, hzero₃.mono hle₄⟩
  have hb : Evolves { scatter := fun _ => 0 } b := h₄.request (.ite p x zero) hchoice
  have ht : b.Holds t := Request.holds_of_run h₄.consistent hchoice rfl rfl
  have hlist : t.symbols = [⟨2, "x", 8⟩, ⟨1, "y", 8⟩] := by decide +kernel
  obtain ⟨-, hnodup, hmem, -, -, -, hmodels⟩ := symbol_lists_are_exact hb ht
  refine ⟨hb, ht, hlist, hnodup, (hmem "y" 8).mp ?_, fun h => ?_, (hmodels m m' ?_).2⟩
  · rw [hlist]
    decide
  · have hz := (hmem "z" 8).mpr h
    rw [hlist] at hz
    revert hz
    decide
  · rw [hlist]
    decide

end Pathwise
