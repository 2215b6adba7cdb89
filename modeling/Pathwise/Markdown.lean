import Pathwise.Grading

/-!
# Reports for people

Results, reports and the catalogue as Markdown, from their documents.
-/

namespace Pathwise.Markdown

/-- A text between backticks. -/
def code (s : String) : String := "\x60" ++ s ++ "\x60"

/-- The cells of one row of a table. -/
def row (cells : List String) : String := "| " ++ " | ".intercalate cells ++ " |\n"

/-- The head of a table. -/
def head (cells : List String) : String :=
  row cells ++ "|" ++ String.join (cells.map fun _ => "---|") ++ "\n"

def texts (j : Json) : List String := j.items.map fun s => s.str?.getD ""

/-- A call as it is written in programs. -/
def signature (name : String) (params : List String) : String :=
  name ++ "(" ++ ", ".intercalate params ++ ")"

def returned (r : Json) : String :=
  let panic := r.textAt "panic"
  if panic = "" then toString (r.intAt "concrete") else "panic: " ++ panic

/-- The document of an exploration result: one line for each input, then the counts. -/
def exploration (result : Json) : String :=
  let returns := (result.get "returns").items
  let rows := (result.get "inputs").items.zipIdx.map fun (input, i) =>
    row [toString (i + 1), code (Assignments.ofJson input).text,
      code (((returns[i]?).map returned).getD "")]
  let stat (name : String) : String := toString ((result.get "stats").intAt name)
  let counts := [stat "iterations", " executions, ", stat "constraints", " constraints (",
    stat "infeasible", " infeasible, ", stat "unknown", " unknown, ", stat "pending", " pending), ",
    stat "divergences", " divergences."]
  "# " ++ signature (result.textAt "function") (texts (result.get "parameters")) ++ "\n\n"
    ++ head ["#", "input", "returns"] ++ String.join rows
    ++ "\n" ++ String.join counts ++ "\n"
    ++ (if result.flagAt "complete" then "\nEvery discovered path was explored.\n"
      else "\n**Exploration stopped before covering every discovered path.**\n")

def counterexample (c : Json) : String :=
  "\n## Counterexample (" ++ c.textAt "stage" ++ ")\n\n"
    ++ "- input: " ++ code (Assignments.ofJson (c.get "input")).text ++ "\n"
    ++ "- reference: " ++ code (c.textAt "reference") ++ "\n"
    ++ "- candidate: " ++ code (c.textAt "candidate") ++ "\n"

def finding (f : Json) : String :=
  row [f.textAt "kind", f.textAt "stage", code (Assignments.ofJson (f.get "input")).text,
    f.textAt "detail"]

/-- The document of a response to a check. -/
def check (response : Json) : String :=
  let report := response.get "report"
  let findings := (report.get "findings").items
  let id := response.textAt "id"
  let verdict := (report.textAt "verdict").map fun c => if c = '_' then ' ' else c
  "# " ++ report.textAt "candidate" ++ " vs " ++ report.textAt "reference" ++ ": " ++ verdict
    ++ "\n\n" ++ toString (report.intAt "checked") ++ " inputs checked, "
    ++ toString (response.intAt "generated") ++ " generated by exploring the reference.\n"
    ++ (match report.get "counterexample" with
      | .null => ""
      | c => counterexample c)
    ++ (if findings.isEmpty then ""
      else "\n## Findings\n\n" ++ head ["kind", "stage", "input", "detail"]
        ++ String.join (findings.map finding))
    ++ (if id = "" then "" else "\nSaved as " ++ code id ++ ".\n")

def variant (v : Json) : String :=
  "- **" ++ v.textAt "name" ++ "**: " ++ v.textAt "description" ++ "\n"

def program (p : Json) : String :=
  "## " ++ signature (p.textAt "name") (texts (p.get "params")) ++ "\n\n" ++ p.textAt "description"
    ++ "\n\n" ++ String.join ((p.get "variants").items.map variant) ++ "\n"

/-- The documents of programs and their variants. -/
def programs (ps : Json) : String := String.join (ps.items.map program)

end Pathwise.Markdown
