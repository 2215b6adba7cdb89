import Pathwise.Grading

/-!
# The service as tools

The service can be called as a set of tools, whose arguments are read leniently. What a tool answers
is a text: a document over several lines, or what went wrong.
-/

namespace Pathwise

inductive Tool where
  | listPrograms
  | explore
  | check
deriving DecidableEq, Repr

namespace Tool

def name : Tool → String
  | .listPrograms => "list_programs"
  | .explore => "explore"
  | .check => "check"

def ofName? (name : String) : Option Tool :=
  [listPrograms, explore, check].find? (·.name == name)

structure Reply where
  isError : Bool := false
  text : String
deriving DecidableEq

def Reply.document (j : Json) : Reply := { text := j.pretty "  " }

def Reply.failed (text : String) : Reply := { isError := true, text }

variable {σ τ : Type}

/-- Reads the arguments of a tool and lets it run. -/
def runWith {ρ α : Type} (t : Tool) (s : Schema) (ofJson : Json → ρ) (arguments : Json)
    (act : ρ → Grading τ α) (toJson : α → Json) : StateM (GradingState τ) Reply := do
  match s.readArguments arguments with
  | .error f => return .failed f.message
  | .ok j =>
    match ← (act (ofJson j)).run with
    | .ok a => return .document (toJson a)
    | .error f => return .failed s!"{t.name} failed: {f.message}"

/-- Calls a tool. -/
def call (g : Grader σ τ) (stamp : Stamp) (arguments : Json) :
    Tool → StateM (GradingState τ) Reply
  | .listPrograms => return .document Catalogue.toJson
  | .explore => runWith .explore ExploreRequest.schema .ofJson arguments (g.explore · stamp)
      ExploreResponse.toJson
  | .check => runWith .check CheckRequest.schema .ofJson arguments (g.check · stamp)
      CheckResponse.toJson

end Tool
end Pathwise
