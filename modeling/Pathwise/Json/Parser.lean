import Pathwise.Json

/-!
# Reading JSON

A recursive descent over the characters. Every call of `value`, `items` and `fields` uses up one
unit of fuel and at least every second one uses up a character, so twice the length of the text is
enough; the entry points `parse?` and `parseFirst?` provide it.
-/

namespace Pathwise.Json

/-- Blanks between tokens. -/
def isBlank (c : Char) : Bool := c = ' ' || c = '\t' || c = '\n' || c = '\r'

def skipBlanks (cs : List Char) : List Char := cs.dropWhile isBlank

/-- Four hexadecimal digits. -/
def hex4? : List Char → Option (Nat × List Char)
  | a :: b :: c :: d :: rest => (Numeral.digits? 16 0 [a, b, c, d]).map (·, rest)
  | _ => none

/-- Half of a surrogate pair, high or low. -/
def isHighSurrogate (n : Nat) : Bool := 0xd800 ≤ n && n < 0xdc00

def isLowSurrogate (n : Nat) : Bool := 0xdc00 ≤ n && n < 0xe000

/-- The character of an escape by a single letter. -/
def shortEscape? (c : Char) : Option Char :=
  match c with
  | '"' => some '"'
  | '\\' => some '\\'
  | '/' => some '/'
  | 'b' => some (Char.ofNat 8)
  | 'f' => some (Char.ofNat 12)
  | 'n' => some '\n'
  | 'r' => some '\r'
  | 't' => some '\t'
  | _ => none

/-- What one code unit of an escape stands for: a lone surrogate is shown as the replacement
character. -/
def unitChar (n : Nat) : Char :=
  if isHighSurrogate n || isLowSurrogate n then Char.ofNat 0xfffd else Char.ofNat n

/-- The rest of a string after its opening quote, collected in reverse. A high surrogate that waits
for its low half is held in `half`. -/
def stringTail (half : Option Nat) (acc : List Char) : List Char → Option (String × List Char)
  | '"' :: rest => some (String.ofList ((flush half acc).reverse), rest)
  | '\\' :: 'u' :: a :: b :: c :: d :: rest =>
    match Numeral.digits? 16 0 [a, b, c, d] with
    | none => none
    | some n =>
      match half with
      | some high =>
        if isLowSurrogate n then
          stringTail none (Char.ofNat (0x10000 + (high - 0xd800) * 0x400 + (n - 0xdc00)) :: acc) rest
        else if isHighSurrogate n then stringTail (some n) (Char.ofNat 0xfffd :: acc) rest
        else stringTail none (unitChar n :: Char.ofNat 0xfffd :: acc) rest
      | none =>
        if isHighSurrogate n then stringTail (some n) acc rest
        else stringTail none (unitChar n :: acc) rest
  | '\\' :: e :: rest =>
    match shortEscape? e with
    | some c => stringTail none (c :: flush half acc) rest
    | none => none
  | c :: rest =>
    if c.toNat < 0x20 ∨ c = '\\' then none else stringTail none (c :: flush half acc) rest
  | [] => none
where
  flush (half : Option Nat) (acc : List Char) : List Char :=
    if half.isSome then Char.ofNat 0xfffd :: acc else acc

/-- The rest of a string after its opening quote as it is spelt, escapes included. -/
def spelling : List Char → List Char
  | '"' :: _ => []
  | '\\' :: c :: rest => '\\' :: c :: spelling rest
  | c :: rest => c :: spelling rest
  | [] => []

/-- A run of decimal digits, which may not be empty. -/
def digitRun? (cs : List Char) : Option (List Char × List Char) :=
  let ds := cs.takeWhile Char.isDigit
  if ds.isEmpty then none else some (ds, cs.dropWhile Char.isDigit)

/-- The whole part of a number: no leading zeros. -/
def wholePart? : List Char → Option (List Char × List Char)
  | '0' :: rest => some (['0'], rest)
  | cs => digitRun? cs

def fractionPart? : List Char → Option (List Char × List Char)
  | '.' :: rest => (digitRun? rest).map fun (ds, rest) => ('.' :: ds, rest)
  | cs => some ([], cs)

def exponentPart? : List Char → Option (List Char × List Char)
  | e :: cs =>
    if e = 'e' ∨ e = 'E' then
      match cs with
      | '+' :: cs => (digitRun? cs).map fun (ds, rest) => (e :: '+' :: ds, rest)
      | '-' :: cs => (digitRun? cs).map fun (ds, rest) => (e :: '-' :: ds, rest)
      | cs => (digitRun? cs).map fun (ds, rest) => (e :: ds, rest)
    else some ([], e :: cs)
  | [] => some ([], [])

def number? (cs : List Char) : Option (Json × List Char) := do
  let (sign, cs) := match cs with
    | '-' :: cs => (['-'], cs)
    | cs => ([], cs)
  let (whole, cs) ← wholePart? cs
  let (fraction, cs) ← fractionPart? cs
  let (exponent, cs) ← exponentPart? cs
  return (.num (String.ofList (sign ++ whole ++ fraction ++ exponent)), cs)

/-- How deep lists and objects may be nested. -/
def maxDepth : Nat := 10000

mutual
/-- One value at the front of the text, with lists and objects nested at most `depth` deep. If `spelt`
is set, texts inside it are kept as they are spelt; names never are. -/
def value (spelt : Bool) : (fuel depth : Nat) → List Char → Option (Json × List Char)
  | 0, _, _ => none
  | fuel + 1, depth, cs =>
    match skipBlanks cs, depth with
    | 'n' :: 'u' :: 'l' :: 'l' :: rest, _ => some (.null, rest)
    | 't' :: 'r' :: 'u' :: 'e' :: rest, _ => some (.bool true, rest)
    | 'f' :: 'a' :: 'l' :: 's' :: 'e' :: rest, _ => some (.bool false, rest)
    | '"' :: body, _ => (stringTail none [] body).map fun (s, rest) =>
      (.str (if spelt then String.ofList (spelling body) else s), rest)
    | '[' :: rest, depth + 1 =>
      match skipBlanks rest with
      | ']' :: rest => some (.arr [], rest)
      | rest => itemsTail spelt fuel depth [] rest
    | '{' :: rest, depth + 1 =>
      match skipBlanks rest with
      | '}' :: rest => some (.obj [], rest)
      | rest => fieldsTail spelt fuel depth [] rest
    | cs, _ => number? cs

/-- The items of a list from one item on, collected in reverse. -/
def itemsTail (spelt : Bool) :
    (fuel depth : Nat) → List Json → List Char → Option (Json × List Char)
  | 0, _, _, _ => none
  | fuel + 1, depth, acc, cs =>
    match value spelt fuel depth cs with
    | none => none
    | some (j, rest) =>
      match skipBlanks rest with
      | ',' :: rest => itemsTail spelt fuel depth (j :: acc) rest
      | ']' :: rest => some (.arr (j :: acc).reverse, rest)
      | _ => none

/-- The fields of an object from one field on, collected in reverse. -/
def fieldsTail (spelt : Bool) :
    (fuel depth : Nat) → List (String × Json) → List Char → Option (Json × List Char)
  | 0, _, _, _ => none
  | fuel + 1, depth, acc, cs =>
    match skipBlanks cs with
    | '"' :: rest =>
      match stringTail none [] rest with
      | none => none
      | some (name, rest) =>
        match skipBlanks rest with
        | ':' :: rest =>
          match value spelt fuel depth rest with
          | none => none
          | some (j, rest) =>
            match skipBlanks rest with
            | ',' :: rest => fieldsTail spelt fuel depth ((name, j) :: acc) rest
            | '}' :: rest => some (.obj ((name, j) :: acc).reverse, rest)
            | _ => none
        | _ => none
    | _ => none
end

/-- The first value of a text, whatever follows it. -/
def parseFirst? (text : String) : Option Json :=
  let cs := text.toList
  (value false (2 * cs.length + 2) maxDepth cs).map (·.1)

/-- A text that is one value, with blanks around it. -/
def parseWhole? (spelt : Bool) (text : String) : Option Json :=
  let cs := text.toList
  match value spelt (2 * cs.length + 2) maxDepth cs with
  | some (j, rest) => if (skipBlanks rest).isEmpty then some j else none
  | none => none

def parse? (text : String) : Option Json := parseWhole? false text

/-- The same value with the texts inside it as they are spelt. -/
def parseSpelt? (text : String) : Option Json := parseWhole? true text

end Pathwise.Json
