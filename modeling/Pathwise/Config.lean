import Pathwise.Equivalence.Document
import Pathwise.Exploration
import Pathwise.Logging.Level

/-!
# Configuration

The settings of a project: how inputs are generated and compared, which solver answers queries, how
answers are cached, where results are kept, and how the program reports on itself.
-/

namespace Pathwise

structure CacheConfig where
  enabled : Bool := false
  backend : String := "memory"
  path : String := "queries.db"
  redisAddress : String := "localhost:6379"
  redisPassword : String := ""
  redisDB : Int := 0
  lruSize : Int := 4096
  /-- The lifetime of remote entries in seconds; 0 keeps them forever. -/
  ttl : Int := 0
deriving DecidableEq, Inhabited

/-- The file that answers are kept in, if they are. -/
def CacheConfig.file? (c : CacheConfig) : Option String :=
  if c.enabled && c.backend = "bolt" then some c.path else none

structure Config where
  /-- The cap on executions; 0 means no cap. -/
  maxIterations : Int := 100
  strategy : String := "bfs"
  seed : List (String × Int64) := []
  /-- The cap when inputs are generated for a check; 0 falls back to the other one. -/
  checkIterations : Int := 0
  stopOnFirst : Bool := false
  solver : String := "z3"
  cache : CacheConfig := {}
  corpusDirectory : String := ""
  logLevel : String := "info"
  noColor : Bool := false
  logDirectory : String := ""
  metricsEnabled : Bool := false
  metricsAddress : String := ":9090"
  serverAddress : String := ":8080"
deriving DecidableEq, Inhabited

namespace Config

def schema : Schema := .record [
  ("exploration", false, .record [("maxIterations", false, .int), ("strategy", false, .text),
    ("seed", true, .table .int)]),
  ("checking", false, .record [("maxIterations", false, .int), ("stopOnFirst", false, .flag)]),
  ("solver", false, .record [("backend", false, .text)]),
  ("cache", false, .record [("enabled", false, .flag), ("backend", false, .text),
    ("path", false, .text), ("redisAddress", false, .text), ("redisPassword", true, .text),
    ("redisDB", false, .int), ("lruSize", false, .int), ("ttl", false, .int)]),
  ("corpus", false, .record [("directory", false, .text)]),
  ("logging", false, .record [("level", false, .text), ("noColor", false, .flag),
    ("logDirectory", false, .text)]),
  ("metrics", false, .record [("enabled", false, .flag), ("address", false, .text)]),
  ("server", false, .record [("address", false, .text)])]

/-- All settings as a value of the schema. -/
def toJson (c : Config) : Json := .obj [
  ("exploration", .obj [("maxIterations", .ofInt c.maxIterations), ("strategy", c.strategy),
    ("seed", .obj (c.seed.map fun (n, v) => (n, .ofInt64 v)))]),
  ("checking", .obj [("maxIterations", .ofInt c.checkIterations), ("stopOnFirst", c.stopOnFirst)]),
  ("solver", .obj [("backend", c.solver)]),
  ("cache", .obj [("enabled", c.cache.enabled), ("backend", c.cache.backend),
    ("path", c.cache.path), ("redisAddress", c.cache.redisAddress),
    ("redisPassword", c.cache.redisPassword), ("redisDB", .ofInt c.cache.redisDB),
    ("lruSize", .ofInt c.cache.lruSize), ("ttl", .ofInt c.cache.ttl)]),
  ("corpus", .obj [("directory", c.corpusDirectory)]),
  ("logging", .obj [("level", c.logLevel), ("noColor", c.noColor),
    ("logDirectory", c.logDirectory)]),
  ("metrics", .obj [("enabled", c.metricsEnabled), ("address", c.metricsAddress)]),
  ("server", .obj [("address", c.serverAddress)])]

/-- The settings in a value of the schema. -/
def ofJson (j : Json) : Config :=
  let exploration := j.get "exploration"
  let checking := j.get "checking"
  let cache := j.get "cache"
  let logging := j.get "logging"
  { maxIterations := exploration.intAt "maxIterations"
    strategy := exploration.textAt "strategy"
    seed := (exploration.get "seed").fields.map fun (n, v) => (n, Int64.ofInt (v.int?.getD 0))
    checkIterations := checking.intAt "maxIterations"
    stopOnFirst := checking.flagAt "stopOnFirst"
    solver := (j.get "solver").textAt "backend"
    cache :=
      { enabled := cache.flagAt "enabled", backend := cache.textAt "backend"
        path := cache.textAt "path", redisAddress := cache.textAt "redisAddress"
        redisPassword := cache.textAt "redisPassword", redisDB := cache.intAt "redisDB"
        lruSize := cache.intAt "lruSize", ttl := cache.intAt "ttl" }
    corpusDirectory := (j.get "corpus").textAt "directory"
    logLevel := logging.textAt "level"
    noColor := logging.flagAt "noColor"
    logDirectory := logging.textAt "logDirectory"
    metricsEnabled := (j.get "metrics").flagAt "enabled"
    metricsAddress := (j.get "metrics").textAt "address"
    serverAddress := (j.get "server").textAt "address" }

/-- The document of the settings. -/
def document (c : Config) : Json := schema.write c.toJson

/-- The settings of a document; what it leaves out has its default. -/
def read? (j : Json) : Option Config := (schema.read (toJson {}) j).map ofJson

/-- Why settings cannot be used. -/
inductive Invalid where
  | explorationLimit
  | checkingLimit
  | strategy (name : String)
  | solver (name : String)
  | cachePath
  | cacheAddress
  | cacheBackend (name : String)
  | cacheSize
  | cacheLifetime
  | logLevel (e : LogLevel.ParseError)
deriving DecidableEq, Repr

def Invalid.failure : Invalid → Failure
  | .explorationLimit => .text "exploration iteration limit cannot be negative"
  | .checkingLimit => .text "checking iteration limit cannot be negative"
  | .strategy name => Strategy.unknown name
  | .solver name => .text s!"unsupported solver backend {Text.quoted name}"
  | .cachePath => .text "the bolt cache needs a database path"
  | .cacheAddress => .text "the redis cache needs an address"
  | .cacheBackend name => .text s!"unknown cache backend {Text.quoted name}"
  | .cacheSize => .text "cache LRU size must be a positive number"
  | .cacheLifetime => .text "cache TTL cannot be negative"
  | .logLevel e => e.failure

def validateCache (c : CacheConfig) : Except Invalid Unit := do
  if c.enabled then
    match c.backend with
    | "memory" => pure ()
    | "bolt" => if c.path = "" then throw .cachePath
    | "redis" => if c.redisAddress = "" then throw .cacheAddress
    | name => throw (.cacheBackend name)
    if c.lruSize ≤ 0 then throw .cacheSize
    if c.ttl < 0 then throw .cacheLifetime

/-- Checks the settings; the first fault counts. -/
def validate (c : Config) : Except Invalid Unit := do
  if c.maxIterations < 0 then throw .explorationLimit
  if c.checkIterations < 0 then throw .checkingLimit
  if (Strategy.ofName? c.strategy).isNone then throw (.strategy c.strategy)
  if !(["", "z3"].contains (Text.lower c.solver)) then throw (.solver c.solver)
  validateCache c.cache
  match LogLevel.parse c.logLevel with
  | .ok _ => pure ()
  | .error e => throw (.logLevel e)

/-- The cap when inputs are generated for a check. -/
def iterationsForChecking (c : Config) : Int :=
  if 0 < c.checkIterations then c.checkIterations else c.maxIterations

end Config
end Pathwise
