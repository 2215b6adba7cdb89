import Pathwise.Text.Quoted
import Pathwise.Word.Numeral

/-!
# JSON values

A value keeps its numbers as they were written, so that 64-bit integers stay exact, and the fields
of an object in their order, repeated names included. There are two printers: one without any
blanks, and one that puts every item on a line of its own behind a chosen indentation.
-/

namespace Pathwise

inductive Json where
  | null
  | bool (b : Bool)
  | num (literal : String)
  | str (s : String)
  | arr (items : List Json)
  | obj (fields : List (String × Json))
deriving Inhabited

namespace Json

def ofInt (n : Int) : Json := .num (toString n)

def ofNat (n : Nat) : Json := .num (toString n)

def ofInt64 (n : Int64) : Json := ofInt n.toInt

instance : Coe String Json := ⟨.str⟩
instance : Coe Bool Json := ⟨.bool⟩
instance : Coe Nat Json := ⟨ofNat⟩
instance : Coe Int64 Json := ⟨ofInt64⟩

/-- A present value as itself, an absent one as `null`. -/
def ofOption (f : α → Json) : Option α → Json
  | some a => f a
  | none => .null

/-- A field that is left out when there is nothing to say. -/
def optional (name : String) : Option Json → List (String × Json)
  | some j => [(name, j)]
  | none => []

def strings (ss : List String) : Json := .arr (ss.map .str)

/-! ### Reading -/

/-- The value of a field. The last of several wins. -/
def get? (j : Json) (name : String) : Option Json :=
  match j with
  | .obj fields => (fields.reverse.find? (·.1 == name)).map (·.2)
  | _ => none

/-- The value of a field, `null` when there is none. -/
def get (j : Json) (name : String) : Json := (j.get? name).getD .null

def items (j : Json) : List Json :=
  match j with
  | .arr items => items
  | _ => []

def fields (j : Json) : List (String × Json) :=
  match j with
  | .obj fields => fields
  | _ => []

def str? (j : Json) : Option String :=
  match j with
  | .str s => some s
  | _ => none

def bool? (j : Json) : Option Bool :=
  match j with
  | .bool b => some b
  | _ => none

/-- A number written without fraction and exponent. -/
def int? (j : Json) : Option Int :=
  match j with
  | .num literal => Numeral.int? 10 literal
  | _ => none

def isNull (j : Json) : Bool :=
  match j with
  | .null => true
  | _ => false

/-! ### Printing -/

/-- How text is written between quotes. With `markup` set, the characters that mean something in
markup are escaped too. -/
def escapedChar (markup : Bool) (c : Char) : String :=
  match c with
  | '"' => "\\\""
  | '\\' => "\\\\"
  | '\n' => "\\n"
  | '\r' => "\\r"
  | '\t' => "\\t"
  | _ =>
    let n := c.toNat
    if n = 8 then "\\b"
    else if n = 12 then "\\f"
    else if n < 0x20 ∨ n = 0x2028 ∨ n = 0x2029
        ∨ (markup ∧ (c = '<' ∨ c = '>' ∨ c = '&')) then
      "\\u" ++ Text.hexPadded 4 n
    else c.toString

def escaped (markup : Bool) (s : String) : String :=
  "\"" ++ String.join (s.toList.map (escapedChar markup)) ++ "\""

mutual
/-- The value on one line, without blanks. -/
def compact (markup : Bool) : Json → String
  | .null => "null"
  | .bool true => "true"
  | .bool false => "false"
  | .num literal => literal
  | .str s => escaped markup s
  | .arr items => "[" ++ ",".intercalate (compactItems markup items) ++ "]"
  | .obj fields => "\x7b" ++ ",".intercalate (compactFields markup fields) ++ "\x7d"

def compactItems (markup : Bool) : List Json → List String
  | [] => []
  | j :: js => compact markup j :: compactItems markup js

def compactFields (markup : Bool) : List (String × Json) → List String
  | [] => []
  | (k, j) :: fs => (escaped markup k ++ ":" ++ compact markup j) :: compactFields markup fs
end

mutual
/-- The value with one item or field a line. `margin` is what stands before the closing bracket,
`step` what is added to it for what is inside. -/
def indented (step margin : String) : Json → String
  | .null => "null"
  | .bool true => "true"
  | .bool false => "false"
  | .num literal => literal
  | .str s => escaped true s
  | .arr [] => "[]"
  | .arr items =>
    "[\n" ++ ",\n".intercalate (indentedItems step (margin ++ step) items)
      ++ "\n" ++ margin ++ "]"
  | .obj [] => "\x7b\x7d"
  | .obj fields =>
    "\x7b\n" ++ ",\n".intercalate (indentedFields step (margin ++ step) fields)
      ++ "\n" ++ margin ++ "\x7d"

def indentedItems (step margin : String) : List Json → List String
  | [] => []
  | j :: js => (margin ++ indented step margin j) :: indentedItems step margin js

def indentedFields (step margin : String) : List (String × Json) → List String
  | [] => []
  | (k, j) :: fs =>
    (margin ++ escaped true k ++ ": " ++ indented step margin j) :: indentedFields step margin fs
end

/-- The value over several lines, as files and replies carry it. -/
def pretty (step : String) (j : Json) : String := j.indented step ""

mutual
/-- The same value with the fields of every object sorted by name. -/
def sorted : Json → Json
  | .arr items => .arr (sortedItems items)
  | .obj fields => .obj ((sortedFields fields).mergeSort (fun a b => a.1 ≤ b.1))
  | j => j

def sortedItems : List Json → List Json
  | [] => []
  | j :: js => sorted j :: sortedItems js

def sortedFields : List (String × Json) → List (String × Json)
  | [] => []
  | (k, j) :: fs => (k, sorted j) :: sortedFields fs
end

end Json
end Pathwise
