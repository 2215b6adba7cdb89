/-!
# Failures

A failure has a cause and a message. The cause is what callers decide by: which status a reply has,
how a failure is named to clients. The message is for people and may say more.
-/

namespace Pathwise

inductive Cause where
  | invalidRequest
  | solverUnavailable
  | partialModel
  | traceNotDrained
  | inactivePath
  | noParameters
  | duplicateParameter
  | missingInput
  | unknownParameter
  | noFunction
  | noBuilder
  | oracleUnknown
  | invalidModel
  | unknownBackend
  | malformedTrace
  | builderMismatch
  | parameterMismatch
  | unknownStrategy
  | noOracle
  | noInvocation
  | unknownProgram
  | unknownVariant
  | notFound
  | canceled
  | deadline
  | other
deriving DecidableEq, Repr, Inhabited

namespace Cause

/-- The name by which clients know a cause, and the message of a failure that has nothing to add. -/
def describe : Cause → String × String
  | .invalidRequest => ("invalid_request", "invalid request")
  | .solverUnavailable => ("solver_unavailable", "smt: no solver backend available")
  | .partialModel => ("partial_model", "smt: model does not assign every free variable")
  | .traceNotDrained => ("trace_not_drained", "symbolic: trace not drained before execution")
  | .inactivePath => ("inactive_path", "symbolic: branch on a value whose path is not active")
  | .noParameters => ("no_parameters", "invocation: no parameters")
  | .duplicateParameter => ("duplicate_param", "invocation: duplicate parameter")
  | .missingInput => ("missing_input", "invocation: missing input")
  | .unknownParameter => ("unknown_parameter", "invocation: unknown parameter")
  | .noFunction => ("nil_func", "invocation: nil function")
  | .noBuilder => ("nil_builder", "invocation: nil expression builder")
  | .oracleUnknown => ("oracle_unknown", "concolic: solver returned unknown")
  | .invalidModel => ("invalid_model", "concolic: model does not satisfy the query")
  | .unknownBackend => ("unknown_backend", "concolic: unknown solver backend")
  | .malformedTrace => ("malformed_trace", "concolic: malformed trace")
  | .builderMismatch =>
    ("builder_mismatch", "concolic: implementations use different expression builders")
  | .parameterMismatch =>
    ("parameter_mismatch", "concolic: implementations declare different parameters")
  | .unknownStrategy => ("unknown_strategy", "concolic: unknown search strategy")
  | .noOracle => ("nil_oracle", "concolic: nil oracle")
  | .noInvocation => ("nil_invocation", "concolic: nil invocation")
  | .unknownProgram => ("unknown_program", "unknown program")
  | .unknownVariant => ("unknown_variant", "unknown variant")
  | .notFound => ("not_found", "querycache: not found")
  | .canceled => ("canceled", "context canceled")
  | .deadline => ("deadline", "context deadline exceeded")
  | .other => ("error", "")

def name (c : Cause) : String := c.describe.1

def message (c : Cause) : String := c.describe.2

/-- All causes that have a name of their own. -/
def all : List Cause := [.invalidRequest, .solverUnavailable, .partialModel, .traceNotDrained,
  .inactivePath, .noParameters, .duplicateParameter, .missingInput, .unknownParameter, .noFunction,
  .noBuilder, .oracleUnknown, .invalidModel, .unknownBackend, .malformedTrace, .builderMismatch,
  .parameterMismatch, .unknownStrategy, .noOracle, .noInvocation, .unknownProgram, .unknownVariant,
  .notFound, .canceled, .deadline]

end Cause

structure Failure where
  cause : Cause := .other
  message : String
deriving DecidableEq, Repr, Inhabited

namespace Failure

/-- The failure that only has a cause. -/
def of (c : Cause) : Failure := ⟨c, c.message⟩

/-- A cause and what it is about. -/
def about (c : Cause) (subject : String) : Failure := ⟨c, c.message ++ ": " ++ subject⟩

/-- A failure of no particular cause. -/
def text (message : String) : Failure := ⟨.other, message⟩

/-- The same failure, said to have come up in some context. -/
def within (label : String) (f : Failure) : Failure := { f with message := label ++ ": " ++ f.message }

/-- Reported as the fault of a request, whatever it was. -/
def ofRequest (message : String) : Failure := about .invalidRequest message

end Failure
end Pathwise
