import Pathwise.Catalogue
import Pathwise.Config
import Pathwise.Corpus
import Pathwise.Equivalence
import Pathwise.Grading.Request
import Pathwise.Metrics

/-!
# Grading

The service explores the programs of the catalogue and checks their variants on request. Every
request has a session of its own, with a fresh builder and an oracle made for it. What outlives a
request is the corpus, the counts of what happened, and what the oracles of all sessions share.

A check runs on the counterexamples that the corpus has for the program, then on the inputs of the
request, then on those that exploring the reference generates, so an input that once showed a
difference is tried again first.

A request that is cancelled fails and leaves no entry. One whose entry cannot be written fails too, but
the entry stays.
-/

namespace Pathwise

/-- Where sessions get their oracles: each is made from what all of them share, and leaves what it
did to that behind. -/
structure OracleSource (σ τ : Type) where
  oracle : Oracle σ
  start : τ → Except Failure (Option σ) × τ
  finish : σ → τ

/-- The service as it was set up. -/
structure Grader (σ τ : Type) where
  config : Config
  source : OracleSource σ τ

/-- What a request meets that the service does not decide. -/
structure Conditions where
  /-- Whether the request is cancelled, by what has happened since it began to explore. -/
  exploring : List Event → Bool := fun _ => false
  /-- Whether it is cancelled, by what has happened since it began to check. -/
  checking : List Event → Bool := fun _ => false
  /-- What a cancelled request is answered. -/
  reason : Failure := .of .canceled
  /-- What comes of writing the corpus. -/
  write : Corpus → Except Failure Unit := fun _ => .ok ()

namespace Conditions

/-- A request that is cancelled does not go on. -/
def proceed (within : Conditions) (cancelled : Bool) : Except Failure Unit :=
  if cancelled then .error within.reason else .ok ()

/-- Writes the corpus, unless it is only kept in memory. -/
def flush (within : Conditions) (c : Corpus) : Except Failure Unit :=
  if c.persistent then within.write c else .ok ()

end Conditions

/-- What outlives a request. -/
structure GradingState (τ : Type) where
  corpus : Option Corpus := none
  metrics : Metrics := {}
  shared : τ

/-- Handling a request. A failure ends it, and what happened before stays. -/
abbrev Grading (τ : Type) := ExceptT Failure (StateM (GradingState τ))

/-- The input assigns exactly the parameters, each once. -/
def Assignments.covers (as : Assignments) (params : List String) : Bool :=
  let names := as.map (·.name)
  names.length = params.length && names.eraseDups.length = params.length
    && params.all (names.contains ·)

/-- The entries of the first list, and those of the second that are not among them. -/
def overrideSettings (settings defaults : List (String × Int64)) : List (String × Int64) :=
  settings ++ defaults.filter fun (name, _) => !settings.any (·.1 == name)

namespace Grader

variable {σ τ : Type}

def orFail {ε α : Type} (f : ε → Failure) : Except ε α → Grading τ α
  | .ok a => return a
  | .error e => throw (f e)

/-- How a target is to be explored: from what the request says, or else the configuration. -/
def explorerFor (g : Grader σ τ) (maxIterations : Int) (strategy : String)
    (seed : List (String × Int64)) :
    Except Failure (Option Invocation → Bool → Except ExplorerError Explorer) :=
  if maxIterations < 0 then .error (.ofRequest "negative iteration limit")
  else
    let name := if strategy = "" then g.config.strategy else strategy
    match Strategy.ofName? name with
    | none => .error (.ofRequest (Strategy.unknown name).message)
    | some strategy => .ok fun target hasOracle =>
      (Explorer.make? target hasOracle maxIterations
        (overrideSettings seed g.config.seed) []).map ({ · with strategy })

/-- Lets the engine work in a session, and takes over what it did. -/
def engine {α : Type} (g : Grader σ τ) (act : Engine σ α) (s : Session σ) :
    Grading τ (α × Session σ) := do
  let (r, s) := act.run s
  modify fun st => { st with
    metrics := st.metrics.recordAll s.events, shared := g.source.finish s.oracle }
  return (← orFail CallError.failure r, { s with events := [] })

/-- The oracle of a new session. -/
def startOracle (g : Grader σ τ) : Grading τ (Option σ) := do
  let (r, shared) := g.source.start (← get).shared
  modify fun st => { st with shared }
  orFail id r

/-- Adds an entry to the corpus, if there is one, and writes it. The entry is answered by its name. -/
def addEntry (within : Conditions) (name : String) (add : Corpus → Corpus) : Grading τ (Option String) := do
  match (← get).corpus with
  | none => return none
  | some c =>
    modify fun st => { st with corpus := some (add c) }
    orFail id (within.flush (add c))
    return some name

/-- Explores the reference of a program. -/
def explore (g : Grader σ τ) (req : ExploreRequest) (stamp : Stamp) (within : Conditions := {}) :
    Grading τ ExploreResponse := do
  let p ← orFail CatalogueError.failure (Catalogue.lookup req.program)
  let cap := if req.maxIterations = 0 then g.config.maxIterations else req.maxIterations
  let make ← orFail id (g.explorerFor cap req.strategy req.seed)
  let (reference, world) ← orFail InvocationError.failure (p.referenceTarget.invoke (some 0) {})
  let oracle ← g.startOracle
  let e ← orFail (fun err => .ofRequest (ExplorerError.failure err).message)
    (make (some reference) oracle.isSome)
  match oracle with
  | none => throw (.of .noOracle)
  | some oracle =>
    let e := { e with cancelled := within.exploring }
    let (x, _) ← g.engine (e.explore g.source.oracle) { world, oracle }
    orFail id (within.proceed x.cancelled)
    let result := x.result
    let id ← addEntry within stamp.id (·.addExploration
      { id := stamp.id, program := p.name, created := stamp.created, result := result.toJson })
    return { id, result }

/-- Inputs that nobody generated can be of the wrong shape. -/
def requireCovers (params : List String) (input : Assignments) : Grading τ Unit :=
  if input.covers params then pure ()
  else
    let names := " ".intercalate params
    throw (.ofRequest s!"input ({input.text}) does not match parameters [{names}]")

/-- What is known before a check: paths behind undecided branches were never generated, so agreement
on the explored inputs says nothing about them. -/
def priorFindings (unknown : Nat) : List Finding :=
  if unknown = 0 then []
  else [{
    kind := .inconclusive, stage := .exploration
    detail := s!"{unknown} constraints of the reference could not be decided" }]

/-- Explores the reference of a program and checks a variant against it. -/
def check (g : Grader σ τ) (req : CheckRequest) (stamp : Stamp) (within : Conditions := {}) :
    Grading τ CheckResponse := do
  let p ← orFail CatalogueError.failure (Catalogue.lookup req.program)
  let cap := if req.maxIterations = 0 then g.config.iterationsForChecking else req.maxIterations
  let make ← orFail id (g.explorerFor cap "" [])
  let (reference, world) ← orFail InvocationError.failure (p.referenceTarget.invoke (some 0) {})
  let v ← orFail CatalogueError.failure (p.variant req.variant)
  let (candidate, world) ← orFail InvocationError.failure ((p.variantTarget v).invoke (some 0) world)
  let oracle ← g.startOracle
  let e ← orFail ExplorerError.failure (make (some reference) oracle.isSome)
  match oracle with
  | none => throw (.of .noOracle)
  | some oracle =>
    let e := { e with cancelled := within.exploring }
    let (x, s) ← g.engine (e.explore g.source.oracle) { world, oracle }
    orFail id (within.proceed x.cancelled)
    let known := ((← get).corpus.map (·.counterexamples p.name)).getD []
    let inputs := known.map (·.getD []) ++ req.inputs ++ x.result.inputs
    for input in inputs do
      requireCovers p.params input
    let c ← orFail CheckerError.failure (Checker.make? (some reference) (some candidate) true)
    let c := { c with
      stopOnFirst := req.stopOnFirst || g.config.stopOnFirst
      prior := priorFindings x.result.stats.unknown
      cancelled := within.checking }
    let (y, _) ← g.engine (c.check g.source.oracle inputs) s
    orFail id (within.proceed y.cancelled)
    let id ← addEntry within stamp.id (·.addCheck (.ofReport stamp p.name req.variant y.report))
    return { id, generated := x.result.inputs.length, report := y.report }

/-- The inputs that are known to show a difference. -/
def counterexamples (st : GradingState τ) (program : String) : List (Option Assignments) :=
  (st.corpus.map (·.counterexamples program)).getD []

end Grader

/-- The documents of all programs. -/
def Catalogue.toJson : Json :=
  .arr (programs.map fun p => .obj [("name", p.name), ("description", p.description),
    ("params", .strings p.params),
    ("variants", .arr (p.variants.map fun v =>
      .obj [("name", v.name), ("description", v.description)]))])

end Pathwise
