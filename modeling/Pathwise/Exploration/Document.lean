import Pathwise.Equivalence.Document
import Pathwise.Exploration

/-!
# Exploration results as documents
-/

namespace Pathwise

namespace ReturnValue

def schema : Schema :=
  .record [("concrete", false, .int), ("symbolic", true, .text), ("panic", true, .text)]

def toJson (r : ReturnValue) : Json :=
  .obj (("concrete", .ofInt64 r.concrete) ::
    (if r.symbolic = "" then [] else [("symbolic", .str r.symbolic)]) ++
    (if r.panic = "" then [] else [("panic", .str r.panic)]))

end ReturnValue

namespace ExplorationStats

def schema : Schema := .record (["iterations", "processed", "infeasible", "unknown", "divergences",
  "pending", "constraints"].map fun n => (n, false, .int))

def toJson (s : ExplorationStats) : Json :=
  .obj [("iterations", s.iterations), ("processed", s.processed), ("infeasible", s.infeasible),
    ("unknown", s.unknown), ("divergences", s.divergences), ("pending", s.pending),
    ("constraints", s.constraints)]

end ExplorationStats

namespace ExplorationResult

def schema : Schema := .record [("function", false, .text), ("parameters", false, .list .text),
  ("inputs", false, .list Assignments.schema), ("returns", false, .list ReturnValue.schema),
  ("stats", false, ExplorationStats.schema), ("complete", false, .flag)]

def toJson (r : ExplorationResult) : Json :=
  .obj [("function", r.function), ("parameters", .strings r.parameters),
    ("inputs", .arr (r.inputs.map Assignments.toJson)),
    ("returns", .arr (r.returns.map ReturnValue.toJson)), ("stats", r.stats.toJson),
    ("complete", r.complete)]

end ExplorationResult
end Pathwise
