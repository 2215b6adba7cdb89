import Pathwise.Binary64
import Pathwise.Time.Moment

/-!
# What a plain scalar stands for

A scalar without quotes may stand for something else than its text. `null` and its variants, the
truth values and the special numbers are words. Numbers may be written in bases, with underscores, a
fraction and an exponent; what does not fit any number is text. A day, or a day and a time, is a
moment. A tag in front of a scalar says what it has to be.
-/

namespace Pathwise

inductive Scalar where
  | null
  | flag (b : Bool)
  | int (v : Int)
  | float (v : Binary64)
  | infinite (negative : Bool)
  | notNumber
  | moment
  | text
deriving DecidableEq, Repr

namespace Scalar

/-- Words that other versions of the format take for truth values. -/
def truthWords : List (String × Bool) :=
  (["y", "Y", "yes", "Yes", "YES", "on", "On", "ON"].map (·, true)) ++
  (["n", "N", "no", "No", "NO", "off", "Off", "OFF"].map (·, false))

/-- The words that stand for something. -/
def words : List (String × Scalar) :=
  (["", "~", "null", "Null", "NULL"].map (·, .null)) ++
  (["true", "True", "TRUE"].map (·, .flag true)) ++
  (["false", "False", "FALSE"].map (·, .flag false)) ++
  ([".nan", ".NaN", ".NAN"].map (·, .notNumber)) ++
  ([".inf", ".Inf", ".INF", "+.inf", "+.Inf", "+.INF"].map (·, .infinite false)) ++
  (["-.inf", "-.Inf", "-.INF"].map (·, .infinite true))

/-- Digits with an exponent, which is optional. -/
def isExponent : List Char → Bool
  | [] => true
  | c :: cs =>
    let digits := match cs with
      | '+' :: ds => ds
      | '-' :: ds => ds
      | ds => ds
    (c = 'e' || c = 'E') && !digits.isEmpty && digits.all Char.isDigit

/-- Digits with a sign, a fraction and an exponent, each of them optional. -/
def isDecimal (cs : List Char) : Bool :=
  let unsigned := match cs with
    | '+' :: cs => cs
    | '-' :: cs => cs
    | cs => cs
  let whole := unsigned.takeWhile Char.isDigit
  let (part, rest) := match unsigned.dropWhile Char.isDigit with
    | '.' :: cs => (cs.takeWhile Char.isDigit, cs.dropWhile Char.isDigit)
    | cs => ([], cs)
  (!whole.isEmpty || !part.isEmpty) && isExponent rest

/-- The number of a decimal; one that is too large is text. -/
def decimal (cs : List Char) : Scalar :=
  let unsigned := match cs with
    | '+' :: cs => cs
    | cs => cs
  match Binary64.ofLiteral? (String.ofList unsigned) with
  | some v => .float v
  | none => .text

/-- Underscores stand between digits only. -/
def separatesDigits : (afterDigit : Bool) → List Char → Bool
  | _, [] => true
  | afterDigit, '_' :: cs => afterDigit && cs.head?.any Char.isDigit && separatesDigits false cs
  | _, c :: cs => separatesDigits c.isDigit cs

/-- A number that starts with its fraction. -/
def ofFraction (cs : List Char) : Scalar :=
  let digits := cs.filter (· ≠ '_')
  if separatesDigits false cs && isDecimal digits then decimal digits else .text

/-- A signed number behind the mark of its base. -/
def markedNumber? (base : Nat) (cs : List Char) : Option Int :=
  match Numeral.int64? base (String.ofList cs) with
  | .ok v => some v.toInt
  | .error _ => none

/-- A number behind `0b` or `0o` that has a sign of its own. -/
def ofMarked (cs : List Char) : Scalar :=
  let found := match cs with
    | '0' :: 'b' :: ds => markedNumber? 2 ds
    | '-' :: '0' :: 'b' :: ds => markedNumber? 2 ('-' :: ds)
    | '0' :: 'o' :: ds => markedNumber? 8 ds
    | '-' :: '0' :: 'o' :: ds => markedNumber? 8 ('-' :: ds)
    | _ => none
  match found with
  | some v => .int v
  | none => .text

/-- A number that starts with a digit or a sign. Underscores may stand anywhere. -/
def ofNumber (text : String) : Scalar :=
  if Moment.isLoose text then .moment
  else
    let cs := text.toList.filter (· ≠ '_')
    match Numeral.int64? 0 (String.ofList cs), Numeral.word? 0 cs with
    | .ok v, _ => .int v.toInt
    | .error _, .ok n => .int n
    | .error _, .error _ =>
      match if isDecimal cs then decimal cs else .text with
      | .text => ofMarked cs
      | s => s

/-- What a scalar without quotes stands for. -/
def ofPlain (text : String) : Scalar :=
  match words.lookup text with
  | some s => s
  | none =>
    match text.toList with
    | [] => .null
    | c :: cs =>
      if c = '.' then ofFraction (c :: cs)
      else if c.isDigit || c = '+' || c = '-' then ofNumber text
      else .text

/-- What a scalar with a tag stands for, if it can be what the tag says. A tag that is not known
leaves the text alone. -/
def ofTagged? (tag text : String) : Option Scalar :=
  match tag, ofPlain text with
  | "!!str", _ => some .text
  | "!!null", .null => some .null
  | "!!bool", .flag b => some (.flag b)
  | "!!int", .int v => some (.int v)
  | "!!float", .int v =>
    if v ≤ Int64.maxValue.toInt then
      (Binary64.ofFraction? (decide (v < 0)) v.natAbs 1).map .float
    else none
  | "!!float", .float v => some (.float v)
  | "!!float", .infinite negative => some (.infinite negative)
  | "!!float", .notNumber => some .notNumber
  | "!!timestamp", .moment => some .moment
  | tag, _ =>
    if ["!!null", "!!bool", "!!int", "!!float", "!!timestamp", "!!binary"].contains tag then none
    else some .text

end Scalar
end Pathwise
