import Std.Data.TreeMap

/-!
# Symbols that occur together

A solver keeps, for every symbol, the constraints that mention it and the symbols that occur with it
in one of them. Both are kept up to date constraint by constraint, so that the symbols that a chain
of constraints leads to are found by following links alone. Symbols and constraints go by their
numbers.
-/

namespace Pathwise

/-- Which symbols are linked, and which constraints mention a symbol. -/
structure SymbolIndex where
  links : Std.TreeMap Nat (List Nat) := {}
  mentions : Std.TreeMap Nat (List Nat) := {}

namespace SymbolIndex

/-- The symbols that occur with a symbol in a constraint. -/
def linked (x : SymbolIndex) (symbol : Nat) : List Nat := x.links.getD symbol []

/-- The constraints that mention a symbol. -/
def mentioning (x : SymbolIndex) (symbol : Nat) : List Nat := x.mentions.getD symbol []

def mention (x : SymbolIndex) (constraint symbol : Nat) : SymbolIndex :=
  { x with mentions := x.mentions.insert symbol ((x.mentioning symbol).insert constraint) }

/-- A link from one symbol to another. -/
def point (x : SymbolIndex) (source target : Nat) : SymbolIndex :=
  { x with links := x.links.insert source ((x.linked source).insert target) }

/-- A link in both directions. -/
def link (x : SymbolIndex) (i j : Nat) : SymbolIndex := (x.point i j).point j i

/-- Enters a constraint under each of its symbols, and links every two of them. -/
def enter (x : SymbolIndex) (constraint : Nat) : (symbols : List Nat) → SymbolIndex
  | [] => x
  | i :: symbols => (symbols.foldl (link · i) (x.mention constraint i)).enter constraint symbols

/-- How many of the symbols have not been visited. -/
def pending (symbols visited : List Nat) : Nat := symbols.countP (!visited.contains ·)

theorem pending_cons_le (symbols visited : List Nat) (i : Nat) :
    pending symbols (i :: visited) ≤ pending symbols visited := by
  refine List.countP_mono_left fun j _ hj => ?_
  rw [List.contains_cons, Bool.not_or, Bool.and_eq_true] at hj
  exact hj.2

theorem pending_cons_lt {symbols visited : List Nat} {i : Nat} (hmem : i ∈ symbols) (hi : i ∉ visited) :
    pending symbols (i :: visited) < pending symbols visited := by
  obtain ⟨before, after, rfl⟩ := List.append_of_mem hmem
  have hbefore := pending_cons_le before visited i
  have hafter := pending_cons_le after visited i
  have hthen : (!visited.contains i) = true := by simp [hi]
  have hnow : (!(i :: visited).contains i) = false := by simp
  unfold pending at hbefore hafter ⊢
  rw [List.countP_append, List.countP_append, List.countP_cons, List.countP_cons, hthen, hnow, if_pos rfl,
    if_neg Bool.false_ne_true]
  omega

theorem mem_keys_of_linked (x : SymbolIndex) {i : Nat} (h : x.linked i ≠ []) : i ∈ x.links.keys := by
  apply Decidable.by_contra
  intro hmem
  rw [Std.TreeMap.mem_keys] at hmem
  exact h (Std.TreeMap.getD_eq_fallback hmem)

/-- The visited symbols, and all that links lead to from those that wait in the queue. -/
def search (x : SymbolIndex) (visited : List Nat) : (queue : List Nat) → List Nat
  | [] => visited
  | i :: queue =>
    if i ∈ visited then x.search visited queue
    else x.search (i :: visited) (x.linked i ++ queue)
termination_by queue => (pending x.links.keys visited, queue.length)
decreasing_by
  · exact Prod.Lex.right _ (Nat.lt_succ_self _)
  · rename_i hi
    by_cases hlinked : x.linked i = []
    · -- A symbol without links may be none of the keys, but then the queue has become shorter.
      rw [hlinked, List.nil_append]
      rcases Nat.lt_or_eq_of_le (pending_cons_le x.links.keys visited i) with hlt | heq
      · exact Prod.Lex.left _ _ hlt
      · rw [heq]
        exact Prod.Lex.right _ (Nat.lt_succ_self _)
    · exact Prod.Lex.left _ _ (pending_cons_lt (x.mem_keys_of_linked hlinked) hi)

end SymbolIndex
end Pathwise
