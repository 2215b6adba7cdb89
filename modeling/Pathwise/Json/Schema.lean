import Pathwise.Json
import Pathwise.Text.Case
import Pathwise.Time.Moment

/-!
# Schemas

A schema says what a document holds. Reading a document by its schema gives a value in which every
field is present: fields that the document leaves out keep what they had before, which is the
default of the document or zero. Names match in any case, an exact match first. Unknown fields are
passed over, `null` leaves a plain field alone and empties a list, a table or an optional part.
Anything of the wrong type makes the document unreadable.

A field may be given several times. Each time is read over the one before, entry by entry in lists.
A list that gets shorter in this way keeps the entries beyond its end aside, and when it gets longer
again they are what the new entries are read over.
-/

namespace Pathwise

namespace Json

/-- The value with a field set, in its place or at the end. -/
def setField (name : String) (v : Json) : List (String × Json) → List (String × Json)
  | [] => [(name, v)]
  | (n, w) :: fs => if n = name then (n, v) :: fs else (n, w) :: setField name v fs

def set (j : Json) (name : String) (v : Json) : Json := .obj (setField name v j.fields)

/-- The values that a field may leave out. -/
def isEmpty : Json → Bool
  | .null => true
  | .bool b => !b
  | .num literal => literal = "0"
  | .str s => s = ""
  | .arr items => items.isEmpty
  | .obj fields => fields.isEmpty

end Json

inductive Schema where
  | text
  | flag
  /-- A 64-bit integer. -/
  | int
  | moment
  | list (item : Schema)
  /-- Values of one kind by name. -/
  | table (value : Schema)
  /-- Named fields. Those that are marked are left out when they are empty. -/
  | record (fields : List (String × Bool × Schema))
  | optional (inner : Schema)
  /-- A field that lenient reading knows by another name. -/
  | called (name : String) (inner : Schema)

/-- A value that documents are read into. A list has entries set aside beyond its end. -/
inductive Draft where
  | plain (j : Json)
  | list (items aside : List Draft)
  | record (fields : List (String × Draft))
deriving Inhabited

namespace Draft

mutual
/-- The draft of a value, with nothing aside. -/
def ofJson : Json → Draft
  | .arr items => .list (ofItems items) []
  | .obj fields => .record (ofFields fields)
  | j => .plain j

def ofItems : List Json → List Draft
  | [] => []
  | j :: js => ofJson j :: ofItems js

def ofFields : List (String × Json) → List (String × Draft)
  | [] => []
  | (name, j) :: fs => (name, ofJson j) :: ofFields fs
end

mutual
/-- The value, without what is aside. -/
def toJson : Draft → Json
  | .plain j => j
  | .list items _ => .arr (toItems items)
  | .record fields => .obj (toFields fields)

def toItems : List Draft → List Json
  | [] => []
  | d :: ds => toJson d :: toItems ds

def toFields : List (String × Draft) → List (String × Json)
  | [] => []
  | (name, d) :: fs => (name, toJson d) :: toFields fs
end

/-- The entries of a list and behind them those aside. -/
def entries : Draft → List Draft
  | .list items aside => items ++ aside
  | _ => []

def fields : Draft → List (String × Draft)
  | .record fields => fields
  | _ => []

def isNull : Draft → Bool
  | .plain j => j.isNull
  | _ => false

def get (d : Draft) (name : String) : Draft :=
  ((d.fields.find? (·.1 == name)).map (·.2)).getD (.plain .null)

def setField (name : String) (v : Draft) : List (String × Draft) → List (String × Draft)
  | [] => [(name, v)]
  | (n, w) :: fs => if n = name then (n, v) :: fs else (n, w) :: setField name v fs

def set (d : Draft) (name : String) (v : Draft) : Draft := .record (setField name v d.fields)

end Draft

namespace Schema

mutual
/-- The value of a field that was never set. -/
def zero : Schema → Json
  | .text => .str ""
  | .flag => .bool false
  | .int => .num "0"
  | .moment | .list _ | .table _ | .optional _ => .null
  | .record fields => .obj (zeros fields)
  | .called _ inner => zero inner

def zeros : List (String × Bool × Schema) → List (String × Json)
  | [] => []
  | (name, _, s) :: fs => (name, zero s) :: zeros fs
end

/-- The name of the field that a name in a document means. -/
def fieldFor (fields : List (String × Bool × Schema)) (name : String) : Option String :=
  let names := fields.map (·.1)
  (names.find? (· == name)).or (names.find? (Text.sameName · name))

mutual
/-- Reads a value over what was there before. -/
def readOver : Schema → (before : Draft) → Json → Option Draft
  | .text, before, j =>
    match j with
    | .null => some before
    | .str s => some (.plain (.str s))
    | _ => none
  | .flag, before, j =>
    match j with
    | .null => some before
    | .bool b => some (.plain (.bool b))
    | _ => none
  | .int, before, j =>
    match j with
    | .null => some before
    | .num literal =>
      match Numeral.int64? 10 literal with
      | .ok v => some (.plain (.ofInt64 v))
      | .error _ => none
    | _ => none
  | .moment, before, j =>
    match j with
    | .null => some before
    | .str s => (Moment.parse? s).map fun _ => .plain (.str s)
    | _ => none
  | .list item, before, j =>
    match j with
    | .null => some (.plain .null)
    | .arr items => do
      let old := before.entries
      let read ← items.zipIdx.mapM fun (j, i) =>
        readOver item (old.getD i (.ofJson (zero item))) j
      return .list read (if items.isEmpty then [] else old.drop items.length)
    | _ => none
  | .table value, before, j =>
    match j with
    | .null => some (.plain .null)
    | .obj given => given.foldlM (fun acc (name, j) => do
        return acc.set name (← readOver value (.ofJson (zero value)) j)) (.record before.fields)
    | _ => none
  | .record fields, before, j =>
    match j with
    | .null => some before
    | .obj given => given.foldlM (fun acc (name, j) =>
        match fieldFor fields name with
        | some name => readField fields name acc j
        | none => some acc) before
    | _ => none
  | .optional inner, before, j =>
    match j with
    | .null => some (.plain .null)
    | j => readOver inner (if before.isNull then .ofJson (zero inner) else before) j
  | .called _ inner, before, j => readOver inner before j

/-- Reads the field of a name into a record. -/
def readField : List (String × Bool × Schema) → String → (before : Draft) → Json → Option Draft
  | [], _, before, _ => some before
  | (n, _, s) :: fs, name, before, j =>
    if n = name then do return before.set n (← readOver s (before.get n) j)
    else readField fs name before j
end

/-- Reads a document over its defaults. -/
def read (s : Schema) (defaults j : Json) : Option Json :=
  (s.readOver (.ofJson defaults) j).map Draft.toJson

/-- Reads a document that has no defaults. -/
def readNew (s : Schema) (j : Json) : Option Json := s.read s.zero j

mutual
/-- The document to write for a value: the fields in order, without those to be left out. -/
def write : Schema → Json → Json
  | .record fields, j => .obj (writeFields fields j)
  | .list item, j =>
    match j with
    | .arr items => .arr (items.map (write item))
    | j => j
  | .table value, j =>
    match j with
    | .obj given =>
      .obj ((given.map fun (n, v) => (n, write value v)).mergeSort (fun a b => a.1 ≤ b.1))
    | j => j
  | .optional inner, j => if j.isNull then .null else write inner j
  | .called _ inner, j => write inner j
  | _, j => j

def writeFields : List (String × Bool × Schema) → Json → List (String × Json)
  | [], _ => []
  | (name, omitted, s) :: fs, j =>
    let v := j.get name
    if omitted && v.isEmpty then writeFields fs j else (name, write s v) :: writeFields fs j
end

end Schema
end Pathwise
