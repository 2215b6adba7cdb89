import Pathwise.Failure

/-!
# Rejections

A rejection is a failure as it is reported to a client over the web: with a status, and a message
that says no more than the client should know.
-/

namespace Pathwise

structure Rejection where
  status : Int
  message : String
  /-- The failure behind the rejection, if there is one. -/
  reason : Option String := none
deriving DecidableEq, Repr

namespace Rejection

/-- The whole text, for the log. -/
def text (r : Rejection) : String :=
  match r.reason with
  | some reason => r.message ++ ": " ++ reason
  | none => r.message

/-- The status of a failure is decided by its cause. Only the messages of failures that the client
can do something about are passed on. -/
def ofFailure (f : Failure) : Rejection :=
  match f.cause with
  | .unknownProgram | .unknownVariant =>
    { status := 404, message := f.message, reason := some f.message }
  | .invalidRequest => { status := 400, message := f.message, reason := some f.message }
  | .deadline | .canceled =>
    { status := 503, message := "request interrupted", reason := some f.message }
  | _ => { status := 500, message := "internal error", reason := some f.message }

end Rejection

/-- What can go wrong while a request is handled. -/
inductive HandlerError where
  | rejected (r : Rejection)
  | failed (f : Failure)

namespace HandlerError

/-- The same error, said to have come up in some context. A rejection stays what it is. -/
def within (label : String) : HandlerError → HandlerError
  | .rejected r => .rejected r
  | .failed f => .failed (f.within label)

/-- How the client is told. -/
def rejection : HandlerError → Rejection
  | .rejected r => r
  | .failed f => .ofFailure f

end HandlerError
end Pathwise
