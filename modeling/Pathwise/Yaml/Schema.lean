import Pathwise.Json.Schema
import Pathwise.Text.Natural
import Pathwise.Yaml
import Pathwise.Yaml.Printer

/-!
# YAML documents by schema

Reading a YAML document over defaults, and writing one, by the schema of what it holds. Names have to
match exactly, and unknown ones are passed over with what they hold.
-/

namespace Pathwise

namespace Scalar

/-- The 64-bit integer that a scalar stands for. Fractions are dropped. -/
def int64? : Scalar → Option Int64
  | .int v => if v ≤ Int64.maxValue.toInt then some (Int64.ofInt v) else none
  | .float v => if v.truncate ≤ Int64.maxValue.toInt + 1 then some v.toInt64 else none
  | .infinite true => some Int64.minValue
  | _ => none

/-- The truth value that a scalar stands for. -/
def flag? (text : String) : Scalar → Option Bool
  | .flag b => some b
  | .text => truthWords.lookup text
  | _ => none

end Scalar

namespace Schema

/-- The value of a scalar over what was there before. -/
def readScalar : Schema → (before : Json) → String × Scalar → Option Json
  | .table _, _, (_, s) => if s = .null then some .null else none
  | .record _, before, (_, s) => if s = .null then some before else none
  | schema, before, (word, s) =>
    match schema, s with
    | .text, .null | .flag, .null | .int, .null => some before
    | .text, _ => some (.str word)
    | .flag, s => (s.flag? word).map .bool
    | .int, s => s.int64?.map .ofInt64
    | _, _ => none

mutual
/-- Reads a YAML node over what was there before. -/
def readYaml : Schema → (before : Json) → Yaml → Option Json
  | .table value, before, y => do
    match ← y.target? with
    | .map entries =>
      (← (Yaml.map entries).entries? false).foldlM (fun acc (k, v) => do
        return acc.set k (← readYaml value (zero value) v)) (.obj before.fields)
    | y => readScalar (.table value) before (← y.scalar?)
  | .record fields, before, y => do
    match ← y.target? with
    | .map entries =>
      let entries ← (Yaml.map entries).entries? false
      let known := (entries.map (·.1)).filter fun name => fields.any (·.1 = name)
      if Yaml.hasRepetition known then none
      else entries.foldlM (fun acc (k, v) => readYamlField fields k acc v) before
    | y => readScalar (.record fields) before (← y.scalar?)
  | schema, before, y => do readScalar schema before (← (← y.target?).scalar?)

/-- Reads the field of a name into a record; another name is passed over. -/
def readYamlField : List (String × Bool × Schema) → String → (before : Json) → Yaml → Option Json
  | [], _, before, _ => some before
  | (n, _, s) :: fs, name, before, y =>
    if n = name then do return before.set n (← readYaml s (before.get n) y)
    else readYamlField fs name before y
end

mutual
/-- The lines of a value behind its key, where `margin` stands before nested lines. -/
def writeYaml (margin : String) : Schema → Json → String
  | .record fields, j => "\n" ++ writeYamlFields margin fields j
  | .table value, j =>
    if j.fields.isEmpty then " \x7b\x7d\n"
    else
      let entries := j.fields.mergeSort (fun a b => !Text.naturalLess b.1 a.1)
      "\n" ++ String.join (entries.map fun (k, v) =>
        Yaml.keyText margin k ++ writeYaml (margin ++ "    ") value v)
  | _, .str s => " " ++ Yaml.scalarLine margin s
  | _, j => " " ++ j.compact false ++ "\n"

def writeYamlFields (margin : String) : List (String × Bool × Schema) → Json → String
  | [], _ => ""
  | (name, omitted, s) :: fs, j =>
    let v := j.get name
    (if omitted && v.isEmpty then "" else margin ++ name ++ ":" ++ writeYaml (margin ++ "    ") s v)
      ++ writeYamlFields margin fs j
end

/-- The document of a record. -/
def yamlDocument : Schema → Json → String
  | .record fields, j => writeYamlFields "" fields j
  | _, j => j.compact false ++ "\n"

end Schema
end Pathwise
