import Pathwise.Grading
import Pathwise.Oracle.Standard

/-!
# The service of a configuration

Sets up the service with the oracles at hand, behind a cache where the configuration asks for one.
The cache of a session starts empty, and its store is shared by all of them.
-/

namespace Pathwise

/-- Makes the oracle of a session. -/
abbrev OracleFactory := ExceptT Failure (StateM OracleShared) (Option StandardOracle)

/-- The factory for the solver that a configuration names. -/
def solverFactory (config : Config) : OracleFactory :=
  match configuredOracle config.solver with
  | .ok o => return some o
  | .error e => throw e.failure

/-- What the sessions of a service share. -/
structure GradingShared where
  store : StoreHandle := .none
  oracles : OracleShared := {}

abbrev StandardGrader := Grader (StandardOracle × OracleShared) GradingShared

abbrev StandardState := GradingState GradingShared

namespace StandardGrader

/-- Puts a cache in front of an oracle, if there is to be one. A cache does without an oracle until
it has to ask. -/
def behindCache (config : Config) (store : StoreHandle) (o : Option StandardOracle) :
    Except Failure (Option StandardOracle) :=
  if !config.cache.enabled then .ok o
  else
    match QueryCache.empty? Lru.front config.cache.lruSize with
    | .ok c => .ok (some (.cached c store (o.getD .absent)))
    | .error e => .error (.text e)

def source (config : Config) (factory : OracleFactory) :
    OracleSource (StandardOracle × OracleShared) GradingShared where
  oracle := StandardOracle.oracle
  start sh :=
    let (r, oracles) := factory.run sh.oracles
    ((r.bind (behindCache config sh.store)).map (·.map (·, oracles)), { sh with oracles })
  finish := fun (o, oracles) =>
    match o with
    | .cached _ store _ => { store, oracles }
    | _ => { oracles }

/-- Sets up the service. -/
def make? (config : Config) (factory : OracleFactory) (corpus : Option Corpus) :
    Except Failure (StandardGrader × StandardState) := do
  config.validate.mapError (·.failure)
  let store ←
    if config.cache.enabled then
      (openStore config.cache.backend config.cache.path).mapError Failure.text
    else .ok .none
  return ({ config, source := source config factory }, { corpus, shared := { store } })

end StandardGrader
end Pathwise
