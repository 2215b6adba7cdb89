import Pathwise.Binary64
import Pathwise.Json.Schema

/-!
# Lenient reading

Arguments that come from people and tools are often of nearly the right type. Lenient reading takes
a number for a text and a text for a number, truth values for both, a single value for a list of
one, and several tables for the one they make up together. Numbers are binary floating-point numbers
whose fraction is dropped.
-/

namespace Pathwise

namespace Schema

/-- The texts that stand for a truth value. -/
def truthOf? (s : String) : Option Bool :=
  if ["1", "t", "T", "TRUE", "true", "True"].contains s then some true
  else if ["0", "f", "F", "FALSE", "false", "False"].contains s then some false
  else none

def lenientText (before : Json) : Json → Option Json
  | .null => some before
  | .str s => some (.str s)
  | .bool b => some (.str (if b then "1" else "0"))
  | .num literal => do return .str (← Binary64.ofLiteral? literal).text
  | _ => none

def lenientInt (before : Json) : Json → Option Json
  | .null => some before
  | .str s =>
    match Numeral.int64? 0 (if s = "" then "0" else s) with
    | .ok v => some (.ofInt64 v)
    | .error _ => none
  | .bool b => some (.ofNat b.toNat)
  | .num literal => do return .ofInt64 (← Binary64.ofLiteral? literal).toInt64
  | _ => none

def lenientFlag (before : Json) : Json → Option Json
  | .null => some before
  | .bool b => some (.bool b)
  | .str s => if s = "" then some (.bool false) else (truthOf? s).map .bool
  | .num literal => do return .bool !(← Binary64.ofLiteral? literal).isZero
  | _ => none

mutual
/-- A table, or tables merged in order; later entries win. -/
def lenientTable (value : Json → Option Json) (before : Json) : Json → Option Json
  | .null => some before
  | .obj given => given.foldlM (fun acc (name, j) => do
      return acc.set name (← value j)) (.obj before.fields)
  | .arr [] => some (.obj before.fields)
  | .arr items => lenientTables value before items
  | _ => none

def lenientTables (value : Json → Option Json) (before : Json) : List Json → Option Json
  | [] => some before
  | j :: js => do lenientTables value (← lenientTable value before j) js
end

/-- The value given for a field: under its own name, or else under one that differs in case. -/
def givenFor (given : Json) (name : String) : Json :=
  match given.get? name with
  | some j => j
  | none => ((given.fields.find? (Text.sameName ·.1 name)).map (·.2)).getD .null

/-- The name by which lenient reading knows a field. -/
def lenientName (name : String) : Schema → String
  | .called other _ => other
  | _ => name

mutual
/-- Reads a value over what was there before, whatever can be made of it. -/
def readLenient : Schema → (before : Json) → Json → Option Json
  | .text, before, j => lenientText before j
  | .flag, before, j => lenientFlag before j
  | .int, before, j => lenientInt before j
  | .moment, before, j => lenientText before j
  | .list item, before, j =>
    match j with
    | .null => some before
    | .arr items => (items.mapM fun j => readLenient item (zero item) j).map .arr
    | .obj [] => some (.arr [])
    | j => (readLenient item (zero item) j).map fun v => .arr [v]
  | .table value, before, j => lenientTable (readLenient value (zero value)) before j
  | .record fields, before, j =>
    match j with
    | .null => some before
    | .obj given => readLenientFields fields before (.obj given)
    | _ => none
  | .optional inner, before, j =>
    if j.isNull then some before
    else readLenient inner (if before.isNull then zero inner else before) j
  | .called _ inner, before, j => readLenient inner before j

def readLenientFields : List (String × Bool × Schema) → (before : Json) → Json → Option Json
  | [], before, _ => some before
  | (n, _, s) :: fs, before, given => do
    let v ← readLenient s (before.get n) (givenFor given (lenientName n s))
    readLenientFields fs (before.set n v) given
end

end Schema
end Pathwise
