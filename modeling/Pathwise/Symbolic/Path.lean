import Pathwise.Symbolic.Inputs
import Pathwise.Symbolic.Trace

/-!
# Paths

A path records the branches that one run takes on symbolic values. It is used for many runs: `begin`
makes it active, the run records predicates on it, `drain` takes them out and makes it inactive. All
paths of a session, its builder and the values that targets keep between runs make up the `World`.
-/

namespace Pathwise

/-- Whether a run is going on, and what it has recorded. -/
structure Path where
  active : Bool := false
  trace : Trace := []

instance : Inhabited Path := ⟨{}⟩

namespace Path

/-- Starts a run; refused while a run is going on or its trace has not been taken out. -/
def begin? (p : Path) : Option Path :=
  if p.active || !p.trace.isEmpty then none else some { p with active := true }

/-- Ends a run: the recorded trace, and the path made empty. -/
def drain (p : Path) : Trace × Path := (p.trace, {})

end Path

/-- Everything that runs change. -/
structure World where
  builder : Builder := {}
  paths : Array Path := #[]
  /-- Values that targets keep from one run to the next, by name. -/
  memory : List (String × SymInt) := []

instance : Inhabited World := ⟨{}⟩

/-- Why a run stops before it returns. -/
inductive Stop where
  /-- A branch on a symbolic value whose path is not active. -/
  | inactivePath
  | unknownParameter (name : String)
  | panic (text : String)
deriving DecidableEq, Repr

/-- Computations of targets. What they did to the world stays when they stop early. -/
abbrev Exec := ExceptT Stop (StateM World)

namespace World

/-- Runs a computation that only interns terms. -/
def build {α : Type} (act : Build α) (w : World) : α × World :=
  let (a, b) := act w.builder
  (a, { w with builder := b })

/-- Makes a path; its number is its place. -/
def newPath (w : World) : Nat × World := (w.paths.size, { w with paths := w.paths.push {} })

def path (w : World) (n : Nat) : Path := w.paths[n]?.getD {}

def setPath (w : World) (n : Nat) (p : Path) : World := { w with paths := w.paths.setIfInBounds n p }

/-- The value of an input on a path: symbolic inputs become the symbol of their name. -/
def bind (w : World) (path : Nat) (i : Input) : SymInt × World :=
  if i.symbolic then
    let (t, w) := w.build (Build.symbol i.name intWidth)
    ({ value := i.value, origin := some ⟨t, path⟩ }, w)
  else (.const i.value, w)

end World

namespace Exec

def build {α : Type} (act : Build α) : Exec α := fun w =>
  let (a, w) := w.build act
  (.ok a, w)

/-- Takes a branch. On a symbolic value the decision is recorded on its path, which has to be
active. -/
def branch (b : SymBool) : Exec Bool := fun w =>
  match b.origin with
  | none => (.ok b.value, w)
  | some o =>
    let path := w.path o.path
    if path.active then
      let (p, w) := w.build (Predicate.make o.term b.value)
      (.ok b.value, w.setPath o.path { path with trace := path.trace ++ [p] })
    else (.error .inactivePath, w)

end Exec
end Pathwise
