import Pathwise.Symbolic.Path

/-!
# The constraint tree with its links

The traces of all executions merged by their common beginnings, as nodes in memory. A node has a link
to its parent, and links to its children by the keys of their predicates. What leads to a node is not
kept in it: it is found by going up.

Nodes are at the addresses from 0 on. The root is at 0 and stands for no decision. A node is made after
its parent, so going up ends.
-/

namespace Pathwise

structure LinkedNode where
  /-- What was decided here, which is nothing at the root. -/
  predicate : Option Predicate := none
  /-- The inputs of the execution that first came here. -/
  inputs : InputMap := {}
  parent : Option Nat := none
  children : List (PredicateKey × Nat) := []
  processed : Bool := false
  /-- The number of predicates from the root down to here. -/
  depth : Nat := 0

structure LinkedTree where
  nodes : Array LinkedNode
  /-- The number of nodes below the root. -/
  size : Nat
  /-- The number of processed nodes. -/
  solved : Nat
  /-- A parent was there before its children. -/
  older : ∀ {i p : Nat} {n : LinkedNode}, nodes[i]? = some n → n.parent = some p → p < i

namespace LinkedTree

/-- The root alone. -/
def empty : LinkedTree where
  nodes := #[{}]
  size := 0
  solved := 0
  older := by
    intro i p n hn hp
    cases i with
    | zero =>
      cases hn
      cases hp
    | succ i => cases hn

/-! ### Going up -/

/-- Writes down the predicates from a node up to the root, each at the place that its depth gives. -/
def climb (t : LinkedTree) (i : Nat) (path : Array (Option Predicate)) : Array (Option Predicate) :=
  match _hn : t.nodes[i]? with
  | none => path
  | some n =>
    match _hp : n.parent with
    | none => path
    | some p => t.climb p (path.setIfInBounds (n.depth - 1) n.predicate)
termination_by i
decreasing_by exact t.older _hn _hp

/-- The predicates from the root down to a node. -/
def path (t : LinkedTree) (i : Nat) : Trace :=
  match t.nodes[i]? with
  | none => []
  | some n => (t.climb i (Array.replicate n.depth none)).toList.reduceOption

/-- The path before the node's own predicate. -/
def asserts (t : LinkedTree) (i : Nat) : Trace := (t.path i).dropLast

/-- The node's own predicate. -/
def query? (t : LinkedTree) (i : Nat) : Option Predicate := (t.path i).getLast?

/-- A trace took the path before the node and then the opposite of its predicate. -/
def isFollowedBy (t : LinkedTree) (i : Nat) (taken : Trace) : Bool :=
  match t.query? i with
  | none => false
  | some last =>
    let before := t.asserts i
    before.length < taken.length && Trace.keys (taken.take before.length) == before.keys
      && (taken[before.length]?).map (·.key) == some last.flip.key

/-! ### Neighbours -/

/-- The parent, if it is not the root. -/
def parent? (t : LinkedTree) (i : Nat) : Option Nat := do
  let n ← t.nodes[i]?
  let p ← n.parent
  let above ← t.nodes[p]?
  if above.parent.isNone then none else some p

/-- The node of the opposite decision, if it has been seen. -/
def sibling? (t : LinkedTree) (i : Nat) : Option Nat := do
  let n ← t.nodes[i]?
  let p ← n.parent
  let above ← t.nodes[p]?
  let own ← n.predicate
  above.children.lookup own.flip.key

/-! ### Growing -/

/-- Changes a node, but not its parent. -/
def update (t : LinkedTree) (i : Nat) (f : LinkedNode → LinkedNode) (hf : ∀ n, (f n).parent = n.parent) :
    LinkedTree :=
  { t with
    nodes := t.nodes.modify i f
    older := by
      intro j p n hn hp
      rw [Array.getElem?_modify] at hn
      by_cases hij : i = j
      · rw [if_pos hij, Option.map_eq_some_iff] at hn
        obtain ⟨m, hm, rfl⟩ := hn
        exact t.older hm ((hf m).symm.trans hp)
      · rw [if_neg hij] at hn
        exact t.older hn hp }

/-- Marks a node; marking it again changes nothing. -/
def mark (t : LinkedTree) (i : Nat) : LinkedTree :=
  match t.nodes[i]? with
  | none => t
  | some n =>
    if n.processed then t
    else
      let t := t.update i (fun n => { n with processed := true }) fun _ => rfl
      { t with solved := t.solved + 1 }

/-- Makes a node for a predicate below another. -/
def make (t : LinkedTree) (p : Nat) (hp : p < t.nodes.size) (own : Predicate) (inputs : InputMap) : LinkedTree :=
  { t with
    nodes := t.nodes.push
      { predicate := some own, inputs, parent := some p, depth := (t.nodes[p]).depth + 1 }
    older := by
      intro j q n hn hq
      rw [Array.getElem?_push] at hn
      by_cases hj : j = t.nodes.size
      · rw [if_pos hj, Option.some_inj] at hn
        subst hn
        cases hq
        exact hj ▸ hp
      · rw [if_neg hj] at hn
        exact t.older hn hq }

/-- Makes a node below another, and the link down to it. -/
def grow (t : LinkedTree) (i : Nat) (hi : i < t.nodes.size) (own : Predicate) (inputs : InputMap) : LinkedTree :=
  let child := t.nodes.size
  let t := t.make i hi own inputs
  let t := t.update i (fun n => { n with children := (own.key, child) :: n.children }) fun _ => rfl
  { t with size := t.size + 1 }

/-- Goes from a node to the one below it for a decision. If there is none it is made, and if its sibling is
there, both are marked. Also answers where that node is and whether it is new. -/
def visit (t : LinkedTree) (i : Nat) (hi : i < t.nodes.size) (own : Predicate) (inputs : InputMap) :
    LinkedTree × Nat × Bool :=
  match (t.nodes[i]).children.lookup own.key with
  | some child => (t, child, false)
  | none =>
    let child := t.nodes.size
    let t := t.grow i hi own inputs
    match t.sibling? child with
    | some sibling => ((t.mark child).mark sibling, child, true)
    | none => (t, child, true)

/-- Merges a trace into the tree from a node on. Also answers the new nodes, in order. -/
def insertFrom (inputs : InputMap) (i : Nat) : Trace → LinkedTree → LinkedTree × List Nat
  | [], t => (t, [])
  | own :: rest, t =>
    if hi : i < t.nodes.size then
      let (t, child, new) := t.visit i hi own inputs
      let (t, created) := insertFrom inputs child rest t
      (t, if new then child :: created else created)
    else (t, [])

/-- Merges a trace into the tree. -/
def insert (t : LinkedTree) (trace : Trace) (inputs : InputMap) : LinkedTree × List Nat :=
  insertFrom inputs 0 trace t

end LinkedTree
end Pathwise
