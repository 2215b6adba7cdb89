import Pathwise.Json.Lenient
import Pathwise.Text.Quoted

/-!
# Flags

A flag is written `--name value` or `--name=value`. A switch needs no value. Flags may stand anywhere
among the other arguments; after `--` there are no more of them. A flag that is given again replaces
what it was given before, except that settings add up.
-/

namespace Pathwise

inductive FlagKind where
  | text
  | integer
  | switch
  /-- Integers by name, as `name=value` pairs with commas between them. -/
  | settings
deriving DecidableEq, Repr

structure Flag where
  name : String
  kind : FlagKind
  /-- A letter that stands for the flag. -/
  letter : Option Char := none
deriving DecidableEq, Repr

inductive FlagValue where
  | text (s : String)
  | integer (n : Int64)
  | switch (b : Bool)
  | settings (vs : List (String × Int64))
deriving DecidableEq

inductive FlagError where
  | unknown (name : String)
  | unknownLetter (c : Char) (letters : String)
  | malformed (argument : String)
  | missingValue (argument : String)
  | invalid (flag : Flag) (value reason : String)
deriving DecidableEq

/-- How messages call a flag. -/
def Flag.title (f : Flag) : String :=
  match f.letter with
  | some c => s!"-{c}, --{f.name}"
  | none => "--" ++ f.name

def FlagError.message : FlagError → String
  | .unknown name => "unknown flag: --" ++ name
  | .unknownLetter c letters =>
    s!"unknown shorthand flag: {Text.quotedLetter c} in -{letters}"
  | .malformed argument => "bad flag syntax: " ++ argument
  | .missingValue argument => "flag needs an argument: " ++ argument
  | .invalid flag value reason =>
    s!"invalid argument {Text.quoted value} for {Text.quoted flag.title} flag: {reason}"

namespace Flag

/-- A number, or what is wrong with it. -/
def readInt (base : Nat) (s : String) : Except String Int64 :=
  match Numeral.int64? base s with
  | .ok n => .ok n
  | .error .syntaxError => .error s!"strconv.ParseInt: parsing {Text.quoted s}: invalid syntax"
  | .error .range => .error s!"strconv.ParseInt: parsing {Text.quoted s}: value out of range"

/-- The text before the first equals sign, and the text after it. -/
def splitPair? (s : String) : Option (String × String) :=
  let cs := s.toList
  match cs.dropWhile (· ≠ '=') with
  | [] => none
  | _ :: value => some (String.ofList (cs.takeWhile (· ≠ '=')), String.ofList value)

/-- The settings with one more. -/
def setSetting (vs : List (String × Int64)) (name : String) (v : Int64) : List (String × Int64) :=
  vs.filter (·.1 != name) ++ [(name, v)]

/-- Adds the pairs of a list to some settings. -/
def readSettings (before : List (String × Int64)) (s : String) :
    Except String (List (String × Int64)) :=
  (s.splitOn ",").foldlM (fun vs pair => do
    match splitPair? pair with
    | none => throw (pair ++ " must be formatted as key=value")
    | some (name, value) => return setSetting vs name (← readInt 10 value)) before

/-- The value of a flag, given what it had before. -/
def read (f : Flag) (before : Option FlagValue) (s : String) : Except String FlagValue :=
  match f.kind with
  | .text => .ok (.text s)
  | .integer => (readInt 0 s).map .integer
  | .switch =>
    match Schema.truthOf? s with
    | some b => .ok (.switch b)
    | none => .error s!"strconv.ParseBool: parsing {Text.quoted s}: invalid syntax"
  | .settings =>
    let vs := match before with
      | some (.settings vs) => vs
      | _ => []
    (readSettings vs s).map .settings

end Flag

/-- The flags that were given, and the other arguments. -/
structure Arguments where
  flags : List (String × FlagValue) := []
  rest : List String := []
  /-- Whether `--` was met. -/
  stopped : Bool := false
deriving Inhabited

namespace Arguments

def flag? (a : Arguments) (name : String) : Option FlagValue :=
  (a.flags.find? (·.1 == name)).map (·.2)

def isGiven (a : Arguments) (name : String) : Bool := (a.flag? name).isSome

def text? (a : Arguments) (name : String) : Option String :=
  match a.flag? name with
  | some (.text s) => some s
  | _ => none

def integer? (a : Arguments) (name : String) : Option Int :=
  match a.flag? name with
  | some (.integer n) => some n.toInt
  | _ => none

def switch? (a : Arguments) (name : String) : Option Bool :=
  match a.flag? name with
  | some (.switch b) => some b
  | _ => none

def settings? (a : Arguments) (name : String) : Option (List (String × Int64)) :=
  match a.flag? name with
  | some (.settings vs) => some vs
  | _ => none

/-- Gives a flag a value. -/
def give (a : Arguments) (f : Flag) (s : String) : Except FlagError Arguments :=
  match f.read (a.flag? f.name) s with
  | .ok v => .ok { a with flags := (f.name, v) :: a.flags.filter (·.1 != f.name) }
  | .error reason => .error (.invalid f s reason)

/-- What one argument is. -/
inductive Kind where
  | plain
  | stop
  /-- Meant for somebody else. -/
  | foreign
  /-- A flag with its value. -/
  | complete (f : Flag) (value : String)
  /-- A flag whose value is the next argument. -/
  | waiting (f : Flag)

/-- A flag that is written out. -/
def classifyLong (flags : List Flag) (s : String) : Except FlagError Kind :=
  let body := String.ofList (s.toList.drop 2)
  if body.startsWith "-" || body.startsWith "=" then .error (.malformed s)
  else
    let (name, value) := ((Flag.splitPair? body).map fun (n, v) => (n, some v)).getD (body, none)
    match flags.find? (·.name == name), value with
    | none, _ => .error (.unknown name)
    | some f, some v => .ok (.complete f v)
    | some f, none => .ok (if f.kind = .switch then .complete f "true" else .waiting f)

/-- The error about letters of which the first is unknown. Letters are looked up by their first byte,
and the byte is what is shown. -/
def unknownLetters (letters : List Char) : FlagError :=
  let s := String.ofList letters
  .unknownLetter (Char.ofNat ((s.toUTF8.toList.head?.map UInt8.toNat).getD 0)) s

/-- Flags that are given by their letters. Only switches have letters here, so any letter may be the
last one. What starts like a flag for test runs is left to those. -/
def classifyLetters (flags : List Flag) : List Char → Except FlagError Kind
  | [] => .ok .plain
  | c :: rest =>
    if "test.".toList.isPrefixOf (c :: rest) then .ok .foreign
    else
      match flags.find? (·.letter == some c), rest with
      | none, _ => .error (unknownLetters (c :: rest))
      | some f, '=' :: v :: vs => .ok (.complete f (String.ofList (v :: vs)))
      | some f, [] => .ok (.complete f "true")
      | some _, d :: ds => classifyLetters flags (d :: ds)

def classify (flags : List Flag) (s : String) : Except FlagError Kind :=
  match s.toList with
  | ['-', '-'] => .ok .stop
  | '-' :: '-' :: _ => classifyLong flags s
  | '-' :: c :: cs => classifyLetters flags (c :: cs)
  | _ => .ok .plain

/-- Reads arguments one by one. -/
def parseFrom (flags : List Flag) : (a : Arguments) → List String → Except FlagError Arguments
  | a, [] => .ok a
  | a, s :: ss => do
    match ← classify flags s with
    | .plain => parseFrom flags { a with rest := a.rest ++ [s] } ss
    | .foreign => parseFrom flags a ss
    | .stop => return { a with rest := a.rest ++ ss, stopped := true }
    | .complete f value => parseFrom flags (← a.give f value) ss
    | .waiting f =>
      match ss with
      | [] => throw (.missingValue s)
      | value :: ss => parseFrom flags (← a.give f value) ss

def parse (flags : List Flag) (args : List String) : Except FlagError Arguments :=
  parseFrom flags {} args

end Arguments
end Pathwise
