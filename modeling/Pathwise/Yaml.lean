import Pathwise.Yaml.Scalar

/-!
# YAML

A document is a tree of scalars, lists and mappings. A node may have a name, and other places may
refer to it by that name. The key `<<` of a mapping merges other mappings in, whose entries stand
behind the mapping's own.
-/

namespace Pathwise

inductive Yaml where
  /-- A scalar with the text that it spells and its tag. A plain one stands without quotes. -/
  | scalar (text : String) (plain : Bool) (tag : Option String)
  | list (items : List Yaml)
  | map (entries : List (Yaml × Yaml))
  /-- Another node by its name. There is none to refer to inside that node itself. -/
  | reference (name : String) (target : Option Yaml)
deriving Inhabited

namespace Yaml

/-- The scalar where none is written. -/
def empty : Yaml := .scalar "" true none

/-- The node itself, or the one that it refers to. -/
def target? : Yaml → Option Yaml
  | .reference _ y => y
  | y => some y

/-- The text of a scalar and what it stands for. -/
def scalar? : Yaml → Option (String × Scalar)
  | .scalar text plain none => some (text, if plain then .ofPlain text else .text)
  | .scalar text _ (some tag) => (Scalar.ofTagged? tag text).map (text, ·)
  | _ => none

def isMerge : Yaml → Bool
  | .scalar text plain none => plain && text = "<<"
  | .scalar text _ (some tag) => tag = "!!merge" && text = "<<"
  | _ => false

/-- What tells keys apart: kind and text. -/
def label : Yaml → Nat × String
  | .scalar text _ _ => (0, text)
  | .list _ => (1, "")
  | .map _ => (2, "")
  | .reference name _ => (3, name)

/-- Some value occurs again later. -/
def hasRepetition {α : Type} [BEq α] : List α → Bool
  | [] => false
  | a :: as => as.contains a || hasRepetition as

/-- The name and value of an entry, unless it has an empty key or merges others in. Only a scalar
can be a key. -/
def namedEntry? : Yaml × Yaml → Option (Option (String × Yaml))
  | (key, value) =>
    if key.isMerge then some none
    else
      match key.target?.bind scalar? with
      | some (_, .null) => some none
      | some (text, _) => some (some (text, value))
      | none => none

/-- Entries, and behind them those of other names. -/
def joined (own others : List (String × Yaml)) : List (String × Yaml) :=
  own ++ others.filter fun e => !(own.any (·.1 = e.1))

mutual
/-- The entries of a mapping by name, with those that are merged in. Keys may not repeat. Where
`merged` is set, the node is what a mapping merges in, and may also be a list of mappings. -/
def entries? (merged : Bool) : Yaml → Option (List (String × Yaml))
  | .map entries =>
    if hasRepetition (entries.map fun e => e.1.label) then none
    else do
      let own := (← entries.mapM namedEntry?).filterMap id
      return joined own (← mergedEntries? entries)
  | .list items => if merged then listedEntries? items else none
  | .reference _ (some y) => entries? false y
  | _ => none

/-- What the entries of a mapping merge in. -/
def mergedEntries? : List (Yaml × Yaml) → Option (List (String × Yaml))
  | [] => some []
  | (key, value) :: es => if key.isMerge then entries? true value else mergedEntries? es

/-- The entries of a list of mappings. -/
def listedEntries? : List Yaml → Option (List (String × Yaml))
  | [] => some []
  | y :: ys => do return joined (← entries? false y) (← listedEntries? ys)
end

end Yaml
end Pathwise
