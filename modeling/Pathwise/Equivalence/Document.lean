import Pathwise.Equivalence.Report
import Pathwise.Json.Schema

/-!
# Reports as documents

How test cases, findings and reports are written as JSON and read back.
-/

namespace Pathwise

namespace Assignments

def schema : Schema := .list (.record [("name", false, .called "Name" .text),
  ("value", false, .called "Value" .int)])

def toJson (as : Assignments) : Json :=
  .arr (as.map fun a => .obj [("name", a.name), ("value", a.value)])

/-- The test case of a value that was read by the schema. -/
def ofJson (j : Json) : Assignments :=
  j.items.map fun a => ⟨((a.get "name").str?).getD "", Int64.ofInt ((a.get "value").int?.getD 0)⟩

/-- The same where the list may be absent. -/
def ofJson? (j : Json) : Option Assignments := if j.isNull then none else some (ofJson j)

end Assignments

/-- A text field of a value that was read by its schema. -/
def Json.textAt (j : Json) (name : String) : String := (j.get name).str?.getD ""

/-- An integer field of a value that was read by its schema. -/
def Json.intAt (j : Json) (name : String) : Int := (j.get name).int?.getD 0

def Json.flagAt (j : Json) (name : String) : Bool := (j.get name).bool?.getD false

namespace Finding

def schema : Schema := .record [("kind", false, .text), ("stage", false, .text),
  ("input", false, Assignments.schema), ("detail", true, .text)]

def toJson (f : Finding) : Json :=
  .obj ([("kind", .str f.kind.text), ("stage", .str f.stage.text),
    ("input", .ofOption Assignments.toJson f.input)] ++
    if f.detail = "" then [] else [("detail", .str f.detail)])

def ofJson (j : Json) : Finding :=
  { kind := .ofText (j.textAt "kind"), stage := .ofText (j.textAt "stage")
    input := Assignments.ofJson? (j.get "input"), detail := j.textAt "detail" }

end Finding

namespace Counterexample

def schema : Schema := .record [("stage", false, .text), ("input", false, Assignments.schema),
  ("reference", false, .text), ("candidate", false, .text)]

def toJson (c : Counterexample) : Json :=
  .obj [("stage", c.stage.text), ("input", c.input.toJson), ("reference", c.reference),
    ("candidate", c.candidate)]

end Counterexample

namespace CheckReport

def schema : Schema := .record [("reference", false, .text), ("candidate", false, .text),
  ("verdict", false, .text), ("counterexample", true, .optional Counterexample.schema),
  ("findings", false, .list Finding.schema), ("checked", false, .int)]

def toJson (r : CheckReport) : Json :=
  .obj ([("reference", .str r.reference), ("candidate", .str r.candidate),
      ("verdict", .str r.verdict.text)]
    ++ Json.optional "counterexample" (r.counterexample.map Counterexample.toJson)
    ++ [("findings", .arr (r.findings.map Finding.toJson)), ("checked", .ofNat r.checked)])

end CheckReport
end Pathwise
