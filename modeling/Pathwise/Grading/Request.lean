import Pathwise.Equivalence.Document
import Pathwise.Exploration.Document
import Pathwise.Json.Lenient

/-!
# Requests and responses

What clients ask of the grading service and what they get. A request comes as a document, and either
it is taken at its word or read leniently, as the arguments of a tool are.
-/

namespace Pathwise

structure ExploreRequest where
  program : String
  /-- The cap on executions; 0 takes the configured one. -/
  maxIterations : Int := 0
  /-- The name of a strategy; none takes the configured one. -/
  strategy : String := ""
  seed : List (String × Int64) := []
deriving DecidableEq, Inhabited

structure CheckRequest where
  program : String
  variant : String
  maxIterations : Int := 0
  stopOnFirst : Bool := false
  /-- Inputs to check beside the generated ones. -/
  inputs : List Assignments := []
deriving DecidableEq, Inhabited

/-- Entries of a table that was read by its schema. -/
def Json.settingsAt (j : Json) (name : String) : List (String × Int64) :=
  (j.get name).fields.map fun (n, v) => (n, Int64.ofInt (v.int?.getD 0))

namespace ExploreRequest

def schema : Schema := .record [("program", false, .text), ("maxIterations", false, .int),
  ("strategy", false, .text), ("seed", false, .table .int)]

/-- The request in a value of the schema. -/
def ofJson (j : Json) : ExploreRequest :=
  { program := j.textAt "program", maxIterations := j.intAt "maxIterations"
    strategy := j.textAt "strategy", seed := j.settingsAt "seed" }

end ExploreRequest

namespace CheckRequest

def schema : Schema := .record [("program", false, .text), ("variant", false, .text),
  ("maxIterations", false, .int), ("stopOnFirst", false, .flag),
  ("inputs", true, .list Assignments.schema)]

/-- The request in a value of the schema. -/
def ofJson (j : Json) : CheckRequest :=
  { program := j.textAt "program", variant := j.textAt "variant"
    maxIterations := j.intAt "maxIterations", stopOnFirst := j.flagAt "stopOnFirst"
    inputs := (j.get "inputs").items.map Assignments.ofJson }

end CheckRequest

/-- Reads the arguments of a tool by the schema of a request. -/
def Schema.readArguments (s : Schema) (arguments : Json) : Except Failure Json :=
  match s.readLenient s.zero arguments with
  | some j => .ok j
  | none => .error (.of .invalidRequest)

structure ExploreResponse where
  /-- The entry of the corpus, if there is a corpus. -/
  id : Option String := none
  result : ExplorationResult
deriving DecidableEq

def ExploreResponse.toJson (r : ExploreResponse) : Json :=
  .obj (Json.optional "id" (r.id.map .str) ++ [("result", r.result.toJson)])

structure CheckResponse where
  /-- The entry of the corpus, if there is a corpus. -/
  id : Option String := none
  /-- The number of inputs that exploring the reference generated. -/
  generated : Nat
  report : CheckReport
deriving DecidableEq

namespace CheckResponse

def schema : Schema :=
  .record [("id", true, .text), ("generated", false, .int), ("report", false, CheckReport.schema)]

def toJson (r : CheckResponse) : Json :=
  .obj (Json.optional "id" (r.id.map .str)
    ++ [("generated", .ofNat r.generated), ("report", r.report.toJson)])

end CheckResponse
end Pathwise
