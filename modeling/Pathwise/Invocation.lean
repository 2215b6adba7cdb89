import Pathwise.Failure
import Pathwise.Script

/-!
# Invocations

An invocation binds a target to its parameters and to the path on which its runs are recorded.
`Invocation.call` runs it once and always leaves the path drained, whatever the target did.
-/

namespace Pathwise

/-- What there is to run: a name, parameters, and a body, which may be missing. -/
structure Target where
  name : String
  params : List String
  body : Option (Args → Exec SymInt)

/-- A target on its path. `home` tells builders apart. -/
structure Invocation where
  name : String
  params : List String
  body : Args → Exec SymInt
  path : Nat
  home : Nat

/-- Why a target cannot be invoked. -/
inductive InvocationError where
  | noFunction
  | noBuilder
  | noParameters
  | duplicateParameter (name : String)
deriving DecidableEq, Repr

def InvocationError.failure : InvocationError → Failure
  | .noFunction => .of .noFunction
  | .noBuilder => .of .noBuilder
  | .noParameters => .of .noParameters
  | .duplicateParameter name => .about .duplicateParameter name

/-- The first name that has occurred before. -/
def firstRepeated (seen : List String) : List String → Option String
  | [] => none
  | n :: ns => if n ∈ seen then some n else firstRepeated (n :: seen) ns

/-- Binds a target to a builder and a new path. -/
def Target.invoke (t : Target) (home : Option Nat) (w : World) :
    Except InvocationError (Invocation × World) :=
  match t.body, home with
  | none, _ => .error .noFunction
  | some _, none => .error .noBuilder
  | some body, some home =>
    if t.params.isEmpty then .error .noParameters
    else
      match firstRepeated [] t.params with
      | some name => .error (.duplicateParameter name)
      | none =>
        let (path, w) := w.newPath
        .ok ({ name := t.name, params := t.params, body, path, home }, w)

/-- The outcome of one call. A target that panicked left a text; then the value means nothing. -/
structure RunResult where
  name : String
  value : SymInt := .const 0
  panic : String := ""

namespace RunResult

def panicked (r : RunResult) : Bool := r.panic ≠ ""

/-- What two implementations are compared by. -/
def outcome (r : RunResult) : String :=
  if r.panicked then "panic: " ++ r.panic else toString r.value.value.toInt

end RunResult

/-- Why a call failed. -/
inductive CallError where
  | missingInput (name : String)
  | traceNotDrained
  | inactivePath
  | unknownParameter (name : String)
deriving DecidableEq, Repr

def CallError.failure : CallError → Failure
  | .missingInput name => .about .missingInput name
  | .traceNotDrained => .of .traceNotDrained
  | .inactivePath => .of .inactivePath
  | .unknownParameter name => .about .unknownParameter name

namespace Invocation

/-- The values of the parameters, in order, up to the first that has no input. -/
def bindArgs (path : Nat) (inputs : InputMap) :
    List String → Args → World → Except CallError Args × World
  | [], args, w => (.ok args, w)
  | name :: names, args, w =>
    match inputs.find? name with
    | none => (.error (.missingInput name), w)
    | some i =>
      let (x, w) := w.bind path i
      bindArgs path inputs names (args ++ [(name, x)]) w

/-- How the end of a run is reported. -/
def resultOf (name : String) : Except Stop SymInt → Except CallError RunResult
  | .ok x => .ok { name, value := x }
  | .error (.panic text) => .ok { name, panic := text }
  | .error .inactivePath => .error .inactivePath
  | .error (.unknownParameter p) => .error (.unknownParameter p)

/-- Runs the target on inputs: its result and the trace it recorded. -/
def call (inv : Invocation) (inputs : InputMap) (w : World) :
    Except CallError (RunResult × Trace) × World :=
  match bindArgs inv.path inputs inv.params [] w with
  | (.error e, w) => (.error e, w)
  | (.ok args, w) =>
    match (w.path inv.path).begin? with
    | none => (.error .traceNotDrained, w)
    | some path =>
      let (end_, w) := (inv.body args).run (w.setPath inv.path path)
      let (trace, path) := (w.path inv.path).drain
      ((resultOf inv.name end_).map (·, trace), w.setPath inv.path path)

end Invocation
end Pathwise
