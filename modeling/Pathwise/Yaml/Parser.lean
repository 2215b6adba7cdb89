import Pathwise.Yaml
import Pathwise.Yaml.Token

/-!
# Reading YAML

The first document of a text as a tree. What follows the document is not looked at. Nodes that have
a name can be referred to from there on, by the last node of that name.
-/

namespace Pathwise.Yaml

/-- What is left to read, and the nodes that have names. A node that is still being read has a name
already. -/
structure Reading where
  tokens : List Token
  nodes : List (String × Option Yaml) := []

/-- A step of reading, which may fail. -/
abbrev Reader := StateT Reading Option

namespace Reader

/-- The next token. -/
def peek : Reader Token := do
  match (← get).tokens with
  | t :: _ => return t
  | [] => failure

/-- Passes over the next token. -/
def skip : Reader Unit := modify fun r => { r with tokens := r.tokens.drop 1 }

/-- Name and tag of the node that follows, in either order. -/
def properties : Reader (Option String × Option String) := do
  match ← peek with
  | .anchor name =>
    skip
    match ← peek with
    | .tag tag => skip; return (some name, some tag)
    | _ => return (some name, none)
  | .tag tag =>
    skip
    match ← peek with
    | .anchor name => skip; return (some name, some tag)
    | _ => return (none, some tag)
  | _ => return (none, none)

/-- The node of a name. -/
def referred (name : String) : Reader Yaml := do
  match (← get).nodes.lookup name with
  | some target => return .reference name target
  | none => failure

/-- Notes the name of a node before it is read. -/
def opening (name : Option String) : Reader Unit :=
  match name with
  | some name => modify fun r => { r with nodes := (name, none) :: r.nodes }
  | none => pure ()

/-- Notes the node of a name, unless a node inside it has taken the name. -/
def closing (name : Option String) (y : Yaml) : Reader Unit :=
  match name with
  | some name => modify fun r =>
    match r.nodes.lookup name with
    | some none => { r with nodes := (name, some y) :: r.nodes }
    | _ => r
  | none => pure ()

mutual
/-- A node. Outside of brackets it may be a block, and as the value of a key it may be a list that
is not indented. -/
def node : Nat → (block indentless : Bool) → Reader Yaml
  | 0, _, _ => failure
  | n + 1, block, indentless => do
    match ← peek with
    | .reference name => skip; referred name
    | _ =>
      let (name, tag) ← properties
      opening name
      let y ← content n block indentless (name.isSome || tag.isSome) (tag.filter (· ≠ "!"))
      closing name y
      return y

/-- A node behind its name and tag. With either of them it may be empty. -/
def content : Nat → (block indentless tagged : Bool) → (tag : Option String) → Reader Yaml
  | 0, _, _, _, _ => failure
  | n + 1, block, indentless, tagged, tag => do
    match block, indentless, ← peek with
    | _, true, .dash => return .list (← indentlessItems n)
    | _, _, .scalar text plain => skip; return .scalar text plain tag
    | _, _, .listOpen => skip; return .list (← flowItems n true)
    | _, _, .mapOpen => skip; return .map (← flowEntries n true)
    | true, _, .blockList => skip; return .list (← blockItems n)
    | true, _, .blockMap => skip; return .map (← blockEntries n)
    | _, _, _ => if tagged then return .scalar "" true tag else failure

/-- A node, or an empty one where one of the given tokens stands. -/
def nodeUnless : Nat → (ends : List Token) → (block indentless : Bool) → Reader Yaml
  | 0, _, _, _ => failure
  | n + 1, ends, block, indentless => do
    if ends.contains (← peek) then return empty else node n block indentless

/-- The value of a key, which may be left out. -/
def valueUnless : Nat → (ends : List Token) → (block : Bool) → Reader Yaml
  | 0, _, _ => failure
  | n + 1, ends, block => do
    if (← peek) = .value then
      skip
      nodeUnless n ends block block
    else return empty

def blockItems : Nat → Reader (List Yaml)
  | 0 => failure
  | n + 1 => do
    match ← peek with
    | .dash =>
      skip
      let y ← nodeUnless n [.dash, .blockEnd] true false
      return y :: (← blockItems n)
    | .blockEnd => skip; return []
    | _ => failure

def indentlessItems : Nat → Reader (List Yaml)
  | 0 => failure
  | n + 1 => do
    match ← peek with
    | .dash =>
      skip
      let y ← nodeUnless n [.dash, .key, .value, .blockEnd] true false
      return y :: (← indentlessItems n)
    | _ => return []

def blockEntries : Nat → Reader (List (Yaml × Yaml))
  | 0 => failure
  | n + 1 => do
    match ← peek with
    | .key =>
      skip
      let k ← nodeUnless n [.key, .value, .blockEnd] true true
      let v ← valueUnless n [.key, .value, .blockEnd] true
      return (k, v) :: (← blockEntries n)
    | .blockEnd => skip; return []
    | _ => failure

/-- The items between brackets. A key among them stands for a mapping of that one entry. -/
def flowItems : Nat → (first : Bool) → Reader (List Yaml)
  | 0, _ => failure
  | n + 1, first => do
    if (← peek) = .listClose then skip; return []
    else
      if !first then
        if (← peek) = .comma then skip else failure
      match ← peek with
      | .listClose => skip; return []
      | .key =>
        skip
        let ends : List Token := [.comma, .listClose]
        let bare := (Token.value :: ends).contains (← peek)
        let k ← if bare then (do skip; return empty) else node n false false
        let v ← valueUnless n ends false
        return .map [(k, v)] :: (← flowItems n false)
      | _ =>
        let y ← node n false false
        return y :: (← flowItems n false)

/-- The entries between braces. A value may be left out. -/
def flowEntries : Nat → (first : Bool) → Reader (List (Yaml × Yaml))
  | 0, _ => failure
  | n + 1, first => do
    if (← peek) = .mapClose then skip; return []
    else
      if !first then
        if (← peek) = .comma then skip else failure
      match ← peek with
      | .mapClose => skip; return []
      | .key =>
        skip
        let k ← nodeUnless n [.value, .comma, .mapClose] false false
        let v ← valueUnless n [.comma, .mapClose] false
        return (k, v) :: (← flowEntries n false)
      | _ =>
        let k ← node n false false
        return (k, empty) :: (← flowEntries n false)
end

/-- What follows the mark of a document. -/
def markedDocument (fuel : Nat) : Reader Yaml := do
  match ← peek with
  | .documentStart =>
    skip
    match ← peek with
    | .version _ | .documentStart | .documentEnd | .textEnd => return empty
    | _ => node fuel true false
  | _ => failure

/-- The first document. A text without any is empty. -/
def document (fuel : Nat) : Reader Yaml := do
  let y ← match ← peek with
    | .version true => skip; markedDocument fuel
    | .documentStart => markedDocument fuel
    | .textEnd => return empty
    | _ => node fuel true false
  let _ ← peek
  return y

end Reader

/-- The first document of a text. A mark of the byte order may stand in front of it. -/
def parse? (text : String) : Option Yaml :=
  let cs := match text.toList with
    | c :: cs => if c.toNat = 0xfeff then cs else c :: cs
    | [] => []
  if cs.all isAllowed then
    let tokens := Token.ofText (unifyBreaks cs)
    ((Reader.document (4 * tokens.length + 4)).run { tokens }).map (·.1)
  else none

end Pathwise.Yaml
