import Pathwise.Grading.Request

/-!
# How a command ends

A command that fails has a message and, where the failure means something to scripts, an exit code of
its own. Contexts that are added to the message on the way up do not change what is shown at the end.
-/

namespace Pathwise

/-- The failure was reported when it came up and is not shown again. -/
def exitHandled : Int := 6

/-- A check found an input on which the candidate differs. -/
def exitNotEquivalent : Int := 7

/-- A check could not rule a difference out. -/
def exitInconclusive : Int := 8

structure CommandError where
  message : String
  /-- The code to exit with and what to show, where that was settled. -/
  settled : Option (Int × Option String) := none
deriving DecidableEq, Repr

namespace CommandError

/-- Settles the code to exit with. -/
def withCode (code : Int) (inner : Option String) : CommandError :=
  { message := inner.getD "", settled := some (code, inner) }

/-- A failure that has been reported. -/
def handled (message : String) : CommandError := withCode exitHandled (some message)

def within (label : String) (e : CommandError) : CommandError :=
  { e with message := label ++ ": " ++ e.message }

/-- The exit code and what to show. Without a settled code it is 1 and the whole message. -/
def outcome (e : CommandError) : Int × Option String := e.settled.getD (1, some e.message)

/-- How a check ends, by the document of its report. -/
def ofReport (report : Json) : Option CommandError :=
  match Verdict.ofText (report.textAt "verdict") with
  | .notEquivalent =>
    let found := match report.get "counterexample" with
      | .null => "<nil>"
      | c =>
        let input := (Assignments.ofJson (c.get "input")).text
        let reference := c.textAt "reference"
        let candidate := c.textAt "candidate"
        s!"on ({input}): reference returned {reference}, candidate returned {candidate}"
    some (withCode exitNotEquivalent (some s!"not equivalent {found}"))
  | .inconclusive | .possiblyDivergent =>
    let verdict := report.textAt "verdict"
    let checked := report.intAt "checked"
    some (withCode exitInconclusive (some s!"{verdict} after {checked} inputs"))
  | _ => none

end CommandError
end Pathwise
