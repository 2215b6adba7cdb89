import Pathwise.Failure
import Pathwise.Text.Case
import Pathwise.Text.Quoted
import Pathwise.Word.Numeral

/-!
# Log levels

Levels are small numbers, the more severe the larger. The usual ones have names.
-/

namespace Pathwise

abbrev LogLevel := Int

namespace LogLevel

def trace : LogLevel := -1
def debug : LogLevel := 0
def info : LogLevel := 1
def warn : LogLevel := 2
def error : LogLevel := 3

/-- Above every event. -/
def none : LogLevel := 6
def disabled : LogLevel := 7

/-- The names of levels, `none` being the empty one. -/
def names : List (String × LogLevel) :=
  [("trace", trace), ("debug", debug), ("info", info), ("warn", warn), ("error", error),
   ("fatal", 4), ("panic", 5), ("disabled", disabled), ("", none)]

/-- Why a text is no level. -/
inductive ParseError where
  | unknown (text : String)
  | outOfBounds (text : String) (level : Int)
deriving DecidableEq, Repr

def ParseError.failure : ParseError → Failure
  | .unknown text => (Failure.text
      s!"Unknown Level String: '{Text.lower text}', defaulting to NoLevel").within
        s!"invalid log level {Text.quoted text}"
  | .outOfBounds text level => (Failure.text
      s!"Out-Of-Bounds Level: '{level}', defaulting to NoLevel").within
        s!"invalid log level {Text.quoted text}"

/-- The number of a text, where it is no name. -/
def number? (text : String) : Option Int :=
  match Numeral.int64? 10 text with
  | .error _ => Option.none
  | .ok v => some v.toInt

/-- The level of a name, in any case. -/
def named? (text : String) : Option LogLevel :=
  (names.find? (Text.sameName ·.1 text)).map (·.2)

/-- A level is a number of one byte. -/
def inBounds (v : Int) : Bool := -128 ≤ v && v ≤ 127

/-- The level of a name in any case, or of a number of one byte. -/
def parse (text : String) : Except ParseError LogLevel :=
  match named? (Text.lower text) with
  | some level => .ok level
  | Option.none =>
    match number? (Text.lower text) with
    | Option.none => .error (.unknown text)
    | some v => if inBounds v then .ok v else .error (.outOfBounds text v)

/-- The level of a name or a number as it is. -/
def ofText? (text : String) : Option LogLevel :=
  (named? text).or ((number? text).filter inBounds)

end LogLevel
end Pathwise
