import Pathwise.CommandLine.Flags
import Pathwise.CommandLine.Host
import Pathwise.CommandLine.Outcome
import Pathwise.Config.File
import Pathwise.Grading.Standard
import Pathwise.Markdown
import Pathwise.Text.Glob

/-!
# The command line

The commands list the catalogue, write a configuration, explore a program, and check a variant of
one. What they need from their surroundings, files, environment, time and output, they get from a
host, so that they can be run anywhere.
-/

namespace Pathwise

inductive Command where
  | check
  | explore
  | init
  | list
deriving DecidableEq, Repr

namespace Command

def program : String := "goconcolic"

def all : List Command := [check, explore, init, list]

def name : Command → String
  | .check => "check"
  | .explore => "explore"
  | .init => "init"
  | .list => "list"

def summary : Command → String
  | .check => "Checks a candidate variant against the reference implementation"
  | .explore => "Generates inputs covering the paths of a program"
  | .init => "Initializes a project configuration"
  | .list => "Lists the built-in programs and their variants"

/-- Commands that a full installation has beside these, with what they do. -/
def others : List (String × String) := [
  ("mcp", "Serves exploration and checking as MCP tools over stdio"),
  ("serve", "Serves exploration and checking over HTTP"),
  ("version", "Print the version and build information"),
  ("completion", "Generate the autocompletion script for the specified shell"),
  ("help", "Help about any command")]

/-- The names of all commands, with what they do. -/
def known : List (String × String) := all.map (fun c => (c.name, c.summary)) ++ others

/-- The flags of every command. -/
def sharedFlags : List Flag := [⟨"config", .text, none⟩, ⟨"log-level", .text, none⟩,
  ⟨"no-color", .switch, none⟩, ⟨"help", .switch, some 'h'⟩]

def ownFlags : Command → List Flag
  | .explore => [⟨"max-iterations", .integer, none⟩, ⟨"strategy", .text, none⟩,
      ⟨"seed", .settings, none⟩, ⟨"corpus-dir", .text, none⟩, ⟨"json", .switch, none⟩]
  | .check => [⟨"max-iterations", .integer, none⟩, ⟨"stop-on-first", .switch, none⟩,
      ⟨"corpus-dir", .text, none⟩, ⟨"cache", .text, none⟩, ⟨"json", .switch, none⟩]
  | .init => [⟨"out", .text, none⟩, ⟨"force", .switch, none⟩, ⟨"cache", .text, none⟩,
      ⟨"corpus-dir", .text, none⟩]
  | .list => [⟨"json", .switch, none⟩]

def flags (c : Command) : List Flag := c.ownFlags ++ sharedFlags

/-! ### Finding the command -/

/-- Whether the next argument belongs to this one: a flag without a value that may need one. Flags
that nobody knows may need one too. -/
def takesNext (flags : List Flag) (s : String) : Bool :=
  !s.contains '=' &&
    match s.toList with
    | '-' :: '-' :: name =>
      !(flags.find? (·.name == String.ofList name)).any (·.kind = .switch)
    | ['-', c] =>
      c.toNat < 0x80 && !(flags.find? (·.letter == some c)).any (·.kind = .switch)
    | _ => false

/-- The first argument that is no flag and no value of one, and the arguments without it. -/
def splitFirst? (flags : List Flag) : List String → Option (String × List String)
  | [] => none
  | s :: ss =>
    if s = "--" then none
    else if takesNext flags s then
      match ss with
      | [] | [_] => none
      | v :: ss => (splitFirst? flags ss).map fun (name, rest) => (name, s :: v :: rest)
    else if s = "" || s.startsWith "-" then
      (splitFirst? flags ss).map fun (name, rest) => (name, s :: rest)
    else some (s, ss)

def unknownCommand (name command : String) : String :=
  s!"unknown command {Text.quoted name} for {Text.quoted command}"

/-- Commands with a name like this one. -/
def similar (name : String) : List String :=
  ((known.map (·.1)).filter (· != "help")).filter fun n =>
    Text.byteDistance (Text.lower name) n ≤ 2 || n.startsWith (Text.lower name)

/-- The message about a command that does not exist. -/
def unknownMessage (name : String) : String :=
  let close := similar name
  unknownCommand name program ++
    if close.isEmpty then ""
    else "\n\nDid you mean this?\n" ++ String.join (close.map fun n => s!"\t{n}\n")

/-! ### Settings from flags -/

/-- The other arguments have to be as many as the command takes. -/
def validateArguments (c : Command) (args : List String) : Except String Unit :=
  let seeList := s!"(see \x60{program} list\x60)"
  match c, args with
  | .explore, [_] | .check, [_, _] | .init, [] | .list, [] => .ok ()
  | .explore, _ => .error s!"explore takes exactly one program name {seeList}"
  | .check, _ => .error s!"check takes a program name and a variant name {seeList}"
  | c, a :: _ => .error (unknownCommand a s!"{program} {c.name}")

/-- The settings that the flags of any command change. -/
def applyShared (a : Arguments) (c : Config) : Config :=
  { c with
    logLevel := (a.text? "log-level").getD c.logLevel
    noColor := (a.switch? "no-color").getD c.noColor }

def applyExplore (a : Arguments) (c : Config) : Config :=
  { c with
    maxIterations := (a.integer? "max-iterations").getD c.maxIterations
    strategy := (a.text? "strategy").getD c.strategy
    seed := (a.settings? "seed").getD c.seed
    corpusDirectory := (a.text? "corpus-dir").getD c.corpusDirectory }

/-- The cache as it is named on the command line, where it can be switched off. -/
def applyCache (backend : Option String) (c : CacheConfig) : CacheConfig :=
  match backend with
  | none => c
  | some "off" => { c with enabled := false }
  | some backend => { c with enabled := true, backend }

def applyCheck (a : Arguments) (c : Config) : Config :=
  { c with
    checkIterations := (a.integer? "max-iterations").getD c.checkIterations
    stopOnFirst := (a.switch? "stop-on-first").getD c.stopOnFirst
    corpusDirectory := (a.text? "corpus-dir").getD c.corpusDirectory
    cache := applyCache (a.text? "cache") c.cache }

/-- The settings of a new project. -/
def applyInit (a : Arguments) (c : Config) : Config :=
  { c with
    cache := match a.text? "cache" with
      | some backend => { c.cache with enabled := true, backend }
      | none => c.cache
    corpusDirectory := (a.text? "corpus-dir").getD c.corpusDirectory }

/-! ### Running -/

def defaultFile : String := "goconcolic.yaml"

variable {m : Type → Type} [Monad m]

/-- What a command does, until it fails. -/
abbrev Run (m : Type → Type) := ExceptT CommandError m

def orHandled {ε α : Type} (message : ε → String) : Except ε α → Run m α
  | .ok a => pure a
  | .error e => throw (.handled (message e))

def validate (c : Config) : Run m Unit := orHandled (fun e => e.failure.message) c.validate

/-- The settings of the project: those of the file that a flag or the environment names, which then
has to exist, or of the usual file, or else the defaults. -/
def loadConfig (h : Host m) (a : Arguments) : Run m Config := do
  let fromEnv ← h.env "GOCONCOLIC_CONFIG"
  let named := (a.text? "config").or (if fromEnv = "" then none else some fromEnv)
  let path := named.getD defaultFile
  let c ←
    match ← h.stat path with
    | .ok _ =>
      let text ← orHandled id (← h.read path)
      match Config.ofText? path text with
      | some c => pure c
      | none => throw (.handled s!"malformed configuration file {path}")
    | .error e => if named.isSome then throw (.handled (e.message "stat" path)) else pure {}
  let c := applyShared a c
  let password ← h.env "GOCONCOLIC_REDIS_PASSWORD"
  let c := if c.cache.redisPassword = "" then { c with cache.redisPassword := password } else c
  validate c
  if c.logDirectory ≠ "" then
    orHandled ("could not create the log file: " ++ ·) (← h.makeDirectory c.logDirectory)
  return c

/-- The corpus of a directory; without one, entries are kept for the time being. The entries are
looked for by a pattern that starts with the directory, and a directory that is itself a pattern has
none. -/
def openCorpus (h : Host m) (directory : String) : Run m Corpus := do
  if directory = "" then return {}
  else
    let part (name : String) : String := Text.cleanPath (directory ++ "/" ++ name)
    if !Text.isPathPattern (part "explorations") then throw (.handled "syntax error in pattern")
    let entries (name : String) : Run m (List (String × Option String)) :=
      if Text.isSpecialPattern directory then pure [] else h.list (part name)
    let explorations ← entries "explorations"
    let checks ← entries "checks"
    match Corpus.load? explorations checks with
    | .ok c => return c
    | .error (.unreadable path) =>
      throw (.handled (PathError.isDirectory.message "read" (part path)))
    | .error (.malformed path) => throw (.handled s!"malformed corpus file {part path}")

/-- Writes the new entries of the corpus, one part of the directory after the other. -/
def flush (h : Host m) (directory : String) (corpus : Corpus) : Run m Unit := do
  for (part, files) in corpus.unwritten do
    let part := Text.cleanPath (directory ++ "/" ++ part)
    orHandled id (← h.makeDirectory part)
    for (name, text) in files do
      let path := Text.cleanPath (part ++ "/" ++ name)
      orHandled (s!"error writing corpus file {path}: " ++ ·) (← h.write path text)

/-- The message about a file of answers that cannot be opened. -/
def unopened (path reason : String) : String := s!"could not open {path}: {reason}"

/-- Sets the service up, lets it handle one request, and writes what is new in the corpus. A request that
is answered fails if that is not possible. -/
def grade {α : Type} (h : Host m) (config : Config)
    (act : StandardGrader → Stamp → Grading GradingShared α) : Run m α := do
  validate config
  let corpus ← openCorpus h config.corpusDirectory
  if let some path := config.cache.file? then
    orHandled (unopened path) (← h.openAnswers path)
  let (g, st) ← orHandled Failure.message
    (StandardGrader.make? config (solverFactory config) (some corpus))
  let (r, st) := (act g (← h.stamp)).run st
  let flushed := flush h config.corpusDirectory (st.corpus.getD {})
  match r with
  | .ok a =>
    flushed
    return a
  | .error f =>
    tryCatch flushed fun _ => pure ()
    throw (.handled f.message)

/-- Prints a document as it is or as it is written for people. -/
def printAs (h : Host m) (a : Arguments) (document : Json) (markdown : String) : Run m Unit :=
  h.print (if (a.switch? "json").getD false then document.pretty "  " ++ "\n" else markdown)

def runExplore (h : Host m) (a : Arguments) (name : String) : Run m Unit := do
  let config := applyExplore a (← loadConfig h a)
  let r ← grade h config fun g stamp => g.explore { program := name } stamp
  printAs h a r.toJson (Markdown.exploration r.result.toJson)

def runCheck (h : Host m) (a : Arguments) (name variant : String) : Run m Unit := do
  let config := applyCheck a (← loadConfig h a)
  let r ← grade h config fun g stamp => g.check { program := name, variant } stamp
  printAs h a r.toJson (Markdown.check r.toJson)
  match CommandError.ofReport r.report.toJson with
  | some e => throw e
  | none => return

def runInit (h : Host m) (a : Arguments) : Run m Unit := do
  let path := (a.text? "out").getD defaultFile
  if (← h.stat path).isOk && !(a.switch? "force").getD false then
    throw (.handled s!"{path} already exists, use --force to overwrite it")
  let config := applyInit a {}
  validate config
  orHandled id (← h.write path (config.fileText path))

/-- Runs a command on its arguments. -/
def run (h : Host m) (c : Command) (args : List String) : Run m Unit := do
  match Arguments.parse c.flags args with
  | .error e => throw { message := e.message }
  | .ok a =>
    if (a.switch? "help").getD false then
      h.print (c.summary ++ "\n")
    else
      match validateArguments c a.rest with
      | .error message => throw { message }
      | .ok _ =>
        match c, a.rest with
        | .explore, [name] => runExplore h a name
        | .check, [name, variant] => runCheck h a name variant
        | .init, _ => runInit h a
        | .list, _ => printAs h a Catalogue.toJson (Markdown.programs Catalogue.toJson)
        | _, _ => return

/-! ### Completion -/

/-- How a shell goes on after the completions: as it likes, or without offering files. -/
inductive Directive where
  | anything
  | noFiles

def Directive.code : Directive → Nat
  | .anything => 0
  | .noFiles => 4

/-- What the last argument leaves open. -/
inductive Pending where
  | nothing
  /-- A flag that waits for its value. -/
  | value
  /-- A flag that nobody knows. -/
  | unknown
deriving DecidableEq

/-- What the last argument leaves open, when it is this one. -/
def pending (flags : List Flag) (s : String) : Pending :=
  let after (f : Option Flag) : Pending :=
    match f with
    | none => .unknown
    | some f => if f.kind = .switch then .nothing else .value
  if s.contains '=' then .nothing
  else
    match s.toList with
    | ['-', '-'] => .nothing
    | '-' :: '-' :: name => after (flags.find? (·.name == String.ofList name))
    | '-' :: c :: cs => after (flags.find? (·.letter == (c :: cs).getLast?))
    | _ => .nothing

/-- The commands with a name that starts like this, sorted, with what they do. -/
def completeName (start : String) : List String :=
  ((known.filter (·.1.startsWith start)).mergeSort (fun a b => a.1 ≤ b.1)).map
    fun (name, summary) => name ++ "\t" ++ summary

/-- What can follow the given arguments of a command. -/
def completeArguments (c : Command) (a : Arguments) : List String :=
  let unused := (c.flags.filter (!a.isGiven ·.name)).map ("--" ++ ·.name)
  match c, a.rest with
  | .explore, [] | .check, [] => Catalogue.names
  | .check, [name] =>
    match Catalogue.lookup name with
    | .ok p => p.variantNames
    | .error _ => unused
  | _, _ => unused

/-- The command that some arguments name, if they name any, and the other arguments. Fails if they
name one that is not there. -/
def select? (args : List String) : Option (Option Command × List String) :=
  match splitFirst? sharedFlags args with
  | none => some (none, args)
  | some (name, rest) => (all.find? (·.name == name)).map fun c => (some c, rest)

/-- Completes the argument that starts like this, after the given ones. -/
def complete (args : List String) (start : String) : List String × Directive :=
  match select? args with
  | none => ([], .anything)
  | some (c, rest) =>
    let flags := (c.map flags).getD sharedFlags
    let pending := (rest.getLast?.map (pending flags)).getD .nothing
    match Arguments.parse flags (if pending = .value then rest.dropLast else rest) with
    | .error _ => ([], .anything)
    | .ok a =>
      if pending = .unknown && !a.stopped then ([], .anything)
      else if a.isGiven "help" then ([], .noFiles)
      else if pending = .value && !a.stopped then ([], .anything)
      else
        match c with
        | some .explore => (completeArguments .explore a, .noFiles)
        | some .check => (completeArguments .check a, .noFiles)
        | none =>
          if a.rest.isEmpty && pending ≠ .value then (completeName start, .noFiles)
          else ([], .anything)
        | _ => ([], .anything)

/-- Prints the completions, each with what it is if that is asked for. -/
def runComplete (h : Host m) (described : Bool) (args : List String) : Run m Unit := do
  match args.getLast? with
  | none => throw { message := "requires at least 1 arg(s), only received 0" }
  | some start =>
    let (words, directive) := complete args.dropLast start
    for w in words do
      h.print ((if described then w else (w.takeWhile (· ≠ '\t')).toString) ++ "\n")
    h.print s!":{directive.code}\n"

/-- Runs the command line. -/
def runLine (h : Host m) (args : List String) : Run m Unit := do
  match splitFirst? sharedFlags args with
  | none =>
    match Arguments.parse sharedFlags args with
    | .error e => throw { message := e.message }
    | .ok _ => h.print (String.join ((completeName "").map (· ++ "\n")))
  | some ("__complete", rest) => runComplete h true rest
  | some ("__completeNoDesc", rest) => runComplete h false rest
  | some (name, rest) =>
    match all.find? (·.name == name) with
    | some c => c.run h rest
    | none =>
      if (others.map (·.1)).contains name then
        throw { message := s!"{name} is not part of this build" }
      else throw { message := unknownMessage name }

end Command
end Pathwise
