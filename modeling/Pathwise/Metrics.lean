import Pathwise.Engine

/-!
# Metrics

Counts of what the engine did, by family and labels, and the page on which they are shown. How often
queries were timed is counted too; the times themselves are not kept.
-/

namespace Pathwise

inductive MetricFamily where
  | constraints
  | executions
  | queries
  | durations
  | verdicts
deriving DecidableEq, Repr

namespace MetricFamily

def name : MetricFamily → String
  | .constraints => "goconcolic_constraints_discovered_total"
  | .executions => "goconcolic_executions_total"
  | .queries => "goconcolic_solver_queries_total"
  | .durations => "goconcolic_solver_query_duration_seconds"
  | .verdicts => "goconcolic_verdicts_total"

def help : MetricFamily → String
  | .constraints => "Number of constraint tree nodes created"
  | .executions => "Number of target executions"
  | .queries => "Number of solver queries by kind and result"
  | .durations => "Duration of solver queries"
  | .verdicts => "Number of equivalence checks by verdict"

/-- The families that are plain counts, sorted by name. -/
def counters : List MetricFamily := [.constraints, .executions, .queries, .verdicts]

end MetricFamily

/-- One count of a family: labels by name, in order. -/
structure MetricSeries where
  family : MetricFamily
  labels : List (String × String) := []
deriving DecidableEq, Repr

/-- Counts in the order in which they were first needed. -/
structure Metrics where
  counts : List (MetricSeries × Nat) := [(⟨.constraints, []⟩, 0)]

instance : Inhabited Metrics := ⟨{}⟩

namespace Metrics

def addTo (s : MetricSeries) : List (MetricSeries × Nat) → List (MetricSeries × Nat)
  | [] => [(s, 1)]
  | (t, n) :: cs => if t = s then (t, n + 1) :: cs else (t, n) :: addTo s cs

/-- Counts one more. -/
def add (m : Metrics) (s : MetricSeries) : Metrics := ⟨addTo s m.counts⟩

/-- Counts an event. -/
def record (m : Metrics) : Event → Metrics
  | .execution e => m.add ⟨.executions, [("function", e.function),
      ("outcome", if e.result.panicked then "panicked" else "returned")]⟩
  | .query kind outcome =>
    (m.add ⟨.queries, [("kind", kind.text), ("result", outcome.text)]⟩).add
      ⟨.durations, [("kind", kind.text)]⟩
  | .constraint _ => m.add ⟨.constraints, []⟩
  | .verdict name => m.add ⟨.verdicts, [("verdict", name)]⟩

def recordAll (m : Metrics) (es : List Event) : Metrics := es.foldl record m

/-- Every count on a line, sorted. -/
def lines (m : Metrics) : List String :=
  (m.counts.map fun (s, n) =>
    s.family.name ++ "\x7b" ++ ",".intercalate (s.labels.map fun (k, v) => k ++ "=" ++ v)
      ++ "\x7d " ++ toString n).mergeSort (· ≤ ·)

/-- Whether two rows of texts stand in order, by the first text in which they differ. -/
def isSorted : List String → List String → Bool
  | [], _ => true
  | _, [] => false
  | a :: as, b :: bs => a < b || (a == b && isSorted as bs)

/-- A label's value between quotes. -/
def labelText (v : String) : String :=
  "\"" ++ String.join (v.toList.map fun c =>
    if c = '\\' then "\\\\" else if c = '\n' then "\\n" else if c = '"' then "\\\"" else c.toString)
    ++ "\""

def seriesText (s : MetricSeries) : String :=
  if s.labels.isEmpty then s.family.name
  else s.family.name ++ "\x7b"
    ++ ",".intercalate (s.labels.map fun (k, v) => k ++ "=" ++ labelText v) ++ "\x7d"

/-- The page of all counters, family by family, each with what it means. -/
def page (m : Metrics) : String :=
  String.join (MetricFamily.counters.map fun f =>
    let mine := (m.counts.filter (·.1.family = f)).mergeSort
      (fun a b => isSorted (a.1.labels.map (·.2)) (b.1.labels.map (·.2)))
    if mine.isEmpty then ""
    else s!"# HELP {f.name} {f.help}\n# TYPE {f.name} counter\n"
      ++ String.join (mine.map fun (s, n) => s!"{seriesText s} {n}\n"))

end Metrics
end Pathwise
