import Pathwise.Json
import Pathwise.Logging.Level

/-!
# Logging

A logger has a level, pairs of names and values that it attaches to every event, and a writer, which
can be detached. An event below the level is dropped. Every other event is written as one JSON object
or as a line for people, in which the level may be coloured.
-/

namespace Pathwise

inductive LogFormat where
  | structured
  | plain
  | colored
deriving DecidableEq, Repr

structure Logger where
  level : LogLevel
  format : LogFormat
  context : List (String × String) := []
  attached : Bool := true

/-- The levels at which events are logged. -/
inductive Severity where
  | trace
  | debug
  | info
  | warn
  | error
deriving DecidableEq, Repr

namespace Severity

def level : Severity → LogLevel
  | .trace => LogLevel.trace
  | .debug => LogLevel.debug
  | .info => LogLevel.info
  | .warn => LogLevel.warn
  | .error => LogLevel.error

def text : Severity → String
  | .trace => "trace"
  | .debug => "debug"
  | .info => "info"
  | .warn => "warn"
  | .error => "error"

end Severity

/-- A part of what is logged. Of several errors, and of several details, the last one counts; null
as the last details stands for none. -/
inductive LogPart where
  | text (s : String)
  | error (message : String)
  | details (info : Json)

namespace Logger

/-- The tag that names the part of the program an event comes from. -/
def serviceKey : String := "service"

/-- A logger with one more pair. -/
def sub (l : Logger) (key value : String) : Logger :=
  { l with context := l.context ++ [(key, value)] }

/-- The fields of an event, in order; the message is left out when it is empty. The time is kept
elsewhere, so a pair of that name is lost. -/
def fields (l : Logger) (severity : Severity) (parts : List LogPart) : List (String × Json) :=
  let message := String.join (parts.map fun
    | .text s => s
    | _ => "")
  let errors := parts.filterMap fun
    | .error e => some e
    | _ => none
  let details := parts.filterMap fun
    | .details i => some i
    | _ => none
  let pairs := l.context.filter (·.1 != "time")
  [("level", .str severity.text)] ++ pairs.map (fun (k, v) => (k, .str v))
    ++ Json.optional "error" (errors.getLast?.map .str)
    ++ Json.optional "info" (details.getLast?.filter (!·.isNull))
    ++ (if message = "" then [] else [("message", .str message)])

/-- Text that is shown between quotes: anything but plain visible characters. -/
def needsQuotes (s : String) : Bool :=
  s.any fun c => c ≤ ' ' || '~' < c || c = '\\' || c = '"'

/-- The value of a field as people see it. -/
def valueText : Json → String
  | .str s => if needsQuotes s then Text.quoted s else s
  | j => j.sorted.compact false

/-- A level as people see it, and the number of its terminal colour. A level of another name is shown
by that name. -/
def levelLook (name : String) (level : LogLevel) : String × Nat :=
  if level = LogLevel.trace then ("trace", 36)
  else if level = LogLevel.debug then ("debug", 34)
  else if level = LogLevel.info then ("⇾", 32)
  else if level = LogLevel.warn then ("warn", 33)
  else (name, 31)

/-- The level of an event as people see it. What is no level at all is shown as it is. -/
def levelText (format : LogFormat) (name : String) : String :=
  match LogLevel.ofText? name with
  | none => name
  | some level =>
    let (shown, color) := levelLook name level
    match format with
    | .colored => s!"\x1b[{color};1m" ++ shown ++ "\x1b[0m"
    | _ => shown

/-- The fields shown behind the message: the error first, the others sorted by name. The service is
of no interest above the level for debugging. Beside an error, a field without a name is dropped. -/
def shownFields (l : Logger) (fields : List (String × Json)) : List (String × Json) :=
  let hidden := ["level", "message", "caller"] ++
    if LogLevel.debug < l.level then [serviceKey] else []
  let shown := (Json.obj (fields.filter fun f => !hidden.contains f.1)).sorted.fields
  match shown.filter (·.1 == "error") with
  | [] => shown
  | error => error ++ shown.filter fun f => f.1 != "error" && f.1 != ""

/-- Of several fields with one name only the last counts. -/
def lastOfEach (fields : List (String × Json)) : List (String × Json) :=
  fields.foldr (fun f fs => if (fs.map (·.1)).contains f.1 then fs else f :: fs) []

/-- An event on one line: the level, the place in the program it comes from if that is known, the
message, and the other fields. -/
def line (l : Logger) (fields : List (String × Json)) : String :=
  let value (name : String) : String := ((Json.obj fields).get name).str?.getD ""
  let caller := value "caller"
  let parts := [levelText l.format (value "level"), if caller = "" then "" else caller ++ " >",
      value "message"]
    ++ (l.shownFields (lastOfEach fields)).map fun (k, v) => k ++ "=" ++ valueText v
  " ".intercalate (parts.filter (· ≠ "")) ++ "\n"

/-- Whether an event of this severity is written. -/
def writes (l : Logger) (severity : Severity) : Bool := l.attached && decide (l.level ≤ severity.level)

/-- What is written for an event: an object, or a line. -/
def log (l : Logger) (severity : Severity) (parts : List LogPart) : Option (Json ⊕ String) :=
  if l.writes severity then
    let fields := l.fields severity parts
    match l.format with
    | .structured => some (.inl (.obj fields))
    | _ => some (.inr (l.line fields))
  else none

end Logger
end Pathwise
