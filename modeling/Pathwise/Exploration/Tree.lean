import Pathwise.Symbolic.Path

/-!
# The constraint tree

The traces of all executions merged by their common beginnings. A node stands for a decision at the
end of a path of decisions, and holds the inputs of the execution that first came there. Once both
branches of a decision have been seen there is nothing left to try, and both nodes count as
processed.

Nodes are numbered in the order in which they appear.
-/

namespace Pathwise

/-- A decision: the predicates from the root down to it, and the inputs that discovered it. -/
structure TreeNode where
  path : Trace
  inputs : InputMap
  processed : Bool := false

namespace TreeNode

/-- The number of predicates on the path, the node's own included. -/
def depth (n : TreeNode) : Nat := n.path.length

/-- What tells the node from all others. -/
def keys (n : TreeNode) : List PredicateKey := n.path.keys

def predicate? (n : TreeNode) : Option Predicate := n.path.getLast?

/-- The path before the node's own predicate. -/
def asserts (n : TreeNode) : Trace := n.path.dropLast

/-- A trace took the path before the node and then the opposite of its predicate. This is what
solving the node asks for. -/
def isFollowedBy (n : TreeNode) (t : Trace) : Bool :=
  match n.predicate? with
  | none => false
  | some p => (n.asserts.keys ++ [p.flip.key]).isPrefixOf t.keys

end TreeNode

structure ConstraintTree where
  nodes : Array TreeNode := #[]
  /-- The number of processed nodes. -/
  solved : Nat := 0

namespace ConstraintTree

/-- The number of nodes. -/
def size (t : ConstraintTree) : Nat := t.nodes.size

/-- The node at the end of a path of decisions. -/
def find? (t : ConstraintTree) (path : List PredicateKey) : Option Nat :=
  t.nodes.findIdx? (·.keys == path)

/-- The node of the opposite decision, if it has been seen. -/
def sibling? (t : ConstraintTree) (n : TreeNode) : Option Nat :=
  n.predicate?.bind fun p => t.find? (n.asserts.keys ++ [p.flip.key])

/-- Marks a node; marking it again changes nothing. -/
def mark (t : ConstraintTree) (i : Nat) : ConstraintTree :=
  match t.nodes[i]? with
  | some n =>
    if n.processed then t
    else { nodes := t.nodes.setIfInBounds i { n with processed := true }, solved := t.solved + 1 }
  | none => t

/-- Adds the node at the end of a path, unless it is there. -/
def observe (t : ConstraintTree) (path : Trace) (inputs : InputMap) : ConstraintTree :=
  match t.find? path.keys with
  | some _ => t
  | none =>
    let n : TreeNode := { path, inputs }
    let i := t.size
    let t := { t with nodes := t.nodes.push n }
    match t.sibling? n with
    | some j => (t.mark i).mark j
    | none => t

/-- Adds the nodes on the way through a trace, from behind the path `before`. -/
def insertAfter (inputs : InputMap) (before : Trace) : Trace → ConstraintTree → ConstraintTree
  | [], t => t
  | p :: ps, t => insertAfter inputs (before ++ [p]) ps (t.observe (before ++ [p]) inputs)

/-- Merges a trace into the tree. Also answers the numbers of the new nodes, in order. -/
def insert (t : ConstraintTree) (trace : Trace) (inputs : InputMap) : ConstraintTree × List Nat :=
  let t' := insertAfter inputs [] trace t
  (t', List.range' t.size (t'.size - t.size))

end ConstraintTree
end Pathwise
