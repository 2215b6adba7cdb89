import Pathwise.Exploration.Document
import Pathwise.Json.Parser

/-!
# The corpus

The corpus keeps what was found: an entry for every exploration and every check. Entries have a file
each, and those that are new wait to be written. The inputs on which some candidate of a program was
seen to differ from the reference can be asked for at any time.
-/

namespace Pathwise

/-- What a new entry is given from outside: a name that no other entry has, and the time. -/
structure Stamp where
  id : String
  created : Moment := {}
deriving DecidableEq, Inhabited

structure ExplorationEntry where
  id : String
  program : String
  created : Moment
  /-- The document of the result, `null` when there is none. -/
  result : Json
deriving Inhabited

structure CheckEntry where
  id : String
  program : String
  candidate : String
  created : Moment
  /-- The document of the report, `null` when there is none. -/
  report : Json
  /-- The input of the counterexample, if there is one. A document may leave the input out. -/
  known : Option (Option Assignments) := none
deriving Inhabited

/-- The moment at which an entry was made, in the text of its file; the beginning of time stands for
none. A moment has to be written without escapes. -/
def Moment.ofEntry? (text : String) : Option Moment := do
  let s : Schema := .record [("created", false, .moment)]
  let j ← s.readNew (← Json.parseSpelt? text)
  return (((j.get "created").str?).bind Moment.parse?).getD {}

namespace ExplorationEntry

def schema : Schema := .record [("id", false, .text), ("program", false, .text),
  ("result", false, .optional ExplorationResult.schema)]

def ofJson (created : Moment) (j : Json) : ExplorationEntry :=
  { id := j.textAt "id", program := j.textAt "program", created
    result := (schema.write j).get "result" }

def toJson (e : ExplorationEntry) : Json :=
  .obj [("id", e.id), ("program", e.program), ("created", e.created.text), ("result", e.result)]

end ExplorationEntry

namespace CheckEntry

def schema : Schema := .record [("id", false, .text), ("program", false, .text),
  ("candidate", false, .text), ("report", false, .optional CheckReport.schema)]

/-- The input of the counterexample in the document of a report. -/
def knownIn (report : Json) : Option (Option Assignments) :=
  match report.get "counterexample" with
  | .obj fields => some (Assignments.ofJson? ((Json.obj fields).get "input"))
  | _ => none

def ofJson (created : Moment) (j : Json) : CheckEntry :=
  let report := (schema.write j).get "report"
  { id := j.textAt "id", program := j.textAt "program", candidate := j.textAt "candidate"
    created, report, known := knownIn report }

/-- The entry for a report that was just made. -/
def ofReport (stamp : Stamp) (program candidate : String) (r : CheckReport) : CheckEntry :=
  { id := stamp.id, program, candidate, created := stamp.created, report := r.toJson
    known := r.counterexample.map fun c => some c.input }

def toJson (e : CheckEntry) : Json :=
  .obj [("id", e.id), ("program", e.program), ("candidate", e.candidate),
    ("created", e.created.text), ("report", e.report)]

end CheckEntry

/-- What spoils a corpus, with its path in the directory. -/
inductive CorpusError where
  | unreadable (path : String)
  | malformed (path : String)
deriving DecidableEq, Repr

/-- An entry and the file it belongs in. -/
structure Filed (α : Type) where
  name : String
  entry : α
  written : Bool := false

namespace Filed

variable {α : Type}

/-- Puts an entry into a file of that name, where case does not count, or into a new one. -/
def put (name : String) (entry : α) : List (Filed α) → List (Filed α)
  | [] => [{ name, entry }]
  | f :: fs =>
    if Text.lower f.name = Text.lower name then { f with entry, written := false } :: fs
    else f :: put name entry fs

/-- Reads the files of a directory that have the right extension, in the order of their names. Names
without a text are not files. -/
def load? (directory : String) (s : Schema) (ofJson : Moment → Json → α)
    (files : List (String × Option String)) : Except CorpusError (List (Filed α)) :=
  ((files.filter (·.1.endsWith ".json")).mergeSort (fun a b => a.1 ≤ b.1)).mapM
    fun (name, text) =>
      let path := directory ++ "/" ++ name
      match text with
      | none => .error (.unreadable path)
      | some text =>
        match (Json.parse? text).bind s.readNew, Moment.ofEntry? text with
        | some j, some created => .ok { name, entry := ofJson created j, written := true }
        | _, _ => .error (.malformed path)

/-- The names and texts of the new files. -/
def unwritten (toJson : α → Json) (fs : List (Filed α)) : List (String × String) :=
  (fs.filter (!·.written)).map fun f => (f.name, (toJson f.entry).pretty " ")

end Filed

structure Corpus where
  explorations : List (Filed ExplorationEntry) := []
  checks : List (Filed CheckEntry) := []
  /-- Whether entries are written at all, or only kept in memory. -/
  persistent : Bool := false
deriving Inhabited

namespace Corpus

/-- The corpus of a directory, from the names and texts in its two parts. A file that cannot be read
spoils it. -/
def load? (explorations checks : List (String × Option String)) : Except CorpusError Corpus := do
  return {
    explorations := ← Filed.load? "explorations" ExplorationEntry.schema .ofJson explorations
    checks := ← Filed.load? "checks" CheckEntry.schema .ofJson checks
    persistent := true }

def addExploration (c : Corpus) (e : ExplorationEntry) : Corpus :=
  { c with explorations := Filed.put (e.id ++ ".json") e c.explorations }

def addCheck (c : Corpus) (e : CheckEntry) : Corpus :=
  { c with checks := Filed.put (e.id ++ ".json") e c.checks }

/-- The files to be written in each part of the directory. -/
def unwritten (c : Corpus) : List (String × List (String × String)) :=
  if c.persistent then
    [("explorations", Filed.unwritten ExplorationEntry.toJson c.explorations),
      ("checks", Filed.unwritten CheckEntry.toJson c.checks)]
  else []

/-- The same corpus once its files are written. -/
def flushed (c : Corpus) : Corpus :=
  if c.persistent then
    { c with
      explorations := c.explorations.map ({ · with written := true })
      checks := c.checks.map ({ · with written := true }) }
  else c

/-- The explorations of a program, the oldest first. No name stands for all programs. -/
def explorationsOf (c : Corpus) (program : String) : List ExplorationEntry :=
  ((c.explorations.map (·.entry)).filter fun e => program = "" || e.program = program).mergeSort
    (fun a b => a.created.nanoseconds ≤ b.created.nanoseconds)

/-- The checks of a program, the oldest first. No name stands for all programs. -/
def checksOf (c : Corpus) (program : String) : List CheckEntry :=
  ((c.checks.map (·.entry)).filter fun e => program = "" || e.program = program).mergeSort
    (fun a b => a.created.nanoseconds ≤ b.created.nanoseconds)

/-- Adds an input unless there is one that looks the same. -/
def addDistinct (known : List (Option Assignments)) (input : Option Assignments) :
    List (Option Assignments) :=
  if known.any (fun k => (k.getD []).text == (input.getD []).text) then known else known ++ [input]

/-- The distinct inputs that showed some candidate of a program to differ. -/
def counterexamples (c : Corpus) (program : String) : List (Option Assignments) :=
  ((c.checksOf program).filterMap (·.known)).foldl addDistinct []

end Corpus
end Pathwise
