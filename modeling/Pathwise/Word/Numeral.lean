/-!
# Numerals

Integers written in a base from 2 to 62, with an optional sign. Base 0 lets the numeral choose:
`0x`, `0b` and `0o` name a base, a bare leading `0` is octal, anything else is decimal, and single
underscores may stand between digits and after the mark of the base.
-/

namespace Pathwise.Numeral

/-- The value of a digit, which has to be below the base. Up to base 36 the case of a letter does
not matter; above, capitals follow the small letters. -/
def digit? (base : Nat) (c : Char) : Option Nat :=
  let v? : Option Nat :=
    if '0' ≤ c ∧ c ≤ '9' then some (c.toNat - '0'.toNat)
    else if 'a' ≤ c ∧ c ≤ 'z' then some (c.toNat - 'a'.toNat + 10)
    else if 'A' ≤ c ∧ c ≤ 'Z' then
      some (c.toNat - 'A'.toNat + (if base ≤ 36 then 10 else 36))
    else none
  v?.filter (· < base)

/-- Reads digits, most significant first, onto `acc`. -/
def digits? (base : Nat) (acc : Nat) : List Char → Option Nat
  | [] => some acc
  | c :: cs =>
    match digit? base c with
    | some d => digits? base (acc * base + d) cs
    | none => none

/-- No underscore is first, last or next to another. -/
def separated : List Char → Bool
  | [] => true
  | '_' :: _ => false
  | _ :: '_' :: cs => !cs.isEmpty && separated cs
  | _ :: cs => separated cs

/-- Digits with single underscores between them, after a mark of the base that counts as one. -/
def spaced? (base : Nat) (marked : Bool) (cs : List Char) : Option Nat :=
  let framed := if marked then '0' :: cs else cs
  let bare := cs.filter (· ≠ '_')
  if separated framed ∧ !bare.isEmpty then digits? base 0 bare else none

/-- A numeral without sign. -/
def magnitude? (base : Nat) (cs : List Char) : Option Nat :=
  if base ≠ 0 then
    if cs.isEmpty then none else digits? base 0 cs
  else
    match cs with
    | ['0'] => some 0
    | '0' :: m :: rest =>
      if m = 'x' ∨ m = 'X' then spaced? 16 true rest
      else if m = 'b' ∨ m = 'B' then spaced? 2 true rest
      else if m = 'o' ∨ m = 'O' then spaced? 8 true rest
      else spaced? 8 true (m :: rest)
    | _ => spaced? 10 false cs

/-- A numeral with an optional sign. -/
def int? (base : Nat) (text : String) : Option Int :=
  match text.toList with
  | '-' :: cs => (magnitude? base cs).map (fun n => -(n : Int))
  | '+' :: cs => (magnitude? base cs).map Int.ofNat
  | cs => (magnitude? base cs).map Int.ofNat

/-- Why a numeral is not a 64-bit integer. -/
inductive Int64Error where
  | syntaxError
  | range
deriving DecidableEq, Repr

/-- Reads digits onto `acc`, most significant first, as long as the value fits in 64 bits. The first
digit that makes it too large settles the matter, whatever comes after it. Underscores are passed
over where they may stand. -/
def wordDigits (base : Nat) (spaced : Bool) (acc : Nat) : List Char → Except Int64Error Nat
  | [] => .ok acc
  | c :: cs =>
    if spaced && c = '_' then wordDigits base spaced acc cs
    else
      match digit? base c with
      | none => .error .syntaxError
      | some d =>
        if Nat.pow 2 64 ≤ acc * base + d then .error .range
        else wordDigits base spaced (acc * base + d) cs

/-- The digits of a numeral that chooses its base, after the mark of the base if there is one. -/
def chosenDigits (base : Nat) (marked : Bool) (cs : List Char) : Except Int64Error Nat := do
  let n ← wordDigits base true 0 cs
  if separated (if marked then '0' :: cs else cs) then return n else throw .syntaxError

/-- A numeral without sign that has to fit in 64 bits. -/
def word? (base : Nat) (cs : List Char) : Except Int64Error Nat :=
  if cs.isEmpty then .error .syntaxError
  else if base ≠ 0 then wordDigits base false 0 cs
  else
    match cs with
    | '0' :: m :: d :: rest =>
      if m = 'x' ∨ m = 'X' then chosenDigits 16 true (d :: rest)
      else if m = 'b' ∨ m = 'B' then chosenDigits 2 true (d :: rest)
      else if m = 'o' ∨ m = 'O' then chosenDigits 8 true (d :: rest)
      else chosenDigits 8 true (m :: d :: rest)
    | '0' :: rest => chosenDigits 8 true rest
    | _ => chosenDigits 10 false cs

/-- A numeral that has to fit in a signed 64-bit integer. -/
def int64? (base : Nat) (text : String) : Except Int64Error Int64 := do
  let (negative, cs) := match text.toList with
    | '-' :: cs => (true, cs)
    | '+' :: cs => (false, cs)
    | cs => (false, cs)
  let n ← word? base cs
  let v : Int := if negative then -n else n
  if Int64.minValue.toInt ≤ v ∧ v ≤ Int64.maxValue.toInt then return Int64.ofInt v
  else throw .range

end Pathwise.Numeral
