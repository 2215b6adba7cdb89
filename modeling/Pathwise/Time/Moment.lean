import Pathwise.Word.Numeral

/-!
# Moments

A moment is a number of nanoseconds since the first instant of the year 1, in universal time. It is
read and written in the usual internet form, `2024-01-31T23:59:59.5Z`, with an offset from universal
time in place of `Z` where there is one. Reading is a little more generous than writing: the hour may
have one digit, a comma may stand for the point, and an offset may reach 24 hours and 60 minutes.
-/

namespace Pathwise

structure Moment where
  nanoseconds : Int := 0
deriving DecidableEq, Inhabited, Repr

namespace Moment

def isLeapYear (y : Nat) : Bool := y % 4 = 0 && (y % 100 ≠ 0 || y % 400 = 0)

def daysInMonth (y m : Nat) : Nat :=
  if m = 2 then (if isLeapYear y then 29 else 28)
  else if m = 4 ∨ m = 6 ∨ m = 9 ∨ m = 11 then 30
  else 31

/-- The days from the first day of year 1 to the first day of a year. Year 0 comes before. -/
def daysBeforeYear (y : Nat) : Int :=
  let p : Int := y - 1
  p * 365 + p / 4 - p / 100 + p / 400

/-- The days of a year before a month. -/
def daysBeforeMonth (y m : Nat) : Nat :=
  (List.range (m - 1)).foldl (fun days i => days + daysInMonth y (i + 1)) 0

/-- Exactly `n` digits at the front of the text. -/
def fixedDigits? (n : Nat) (cs : List Char) : Option (Nat × List Char) := do
  if cs.length < n then none
  let v ← Numeral.digits? 10 0 (cs.take n)
  some (v, cs.drop n)

def expect? (c : Char) : List Char → Option (List Char)
  | d :: cs => if d = c then some cs else none
  | [] => none

/-- One or two digits at the front of the text. -/
def shortDigits? (cs : List Char) : Option (Nat × List Char) :=
  (fixedDigits? 2 cs).or (fixedDigits? 1 cs)

/-- The fraction of a second in nanoseconds. Digits beyond the ninth are dropped. -/
def fraction (cs : List Char) : Nat × List Char :=
  match cs with
  | c :: rest =>
    let ds := rest.takeWhile Char.isDigit
    if (c = '.' || c = ',') && !ds.isEmpty then
      ((Numeral.digits? 10 0 ((ds ++ List.replicate 9 '0').take 9)).getD 0,
        rest.dropWhile Char.isDigit)
    else (0, cs)
  | [] => (0, [])

/-- The offset from universal time in seconds, up to the end of the text. -/
def offset? : List Char → Option Int
  | ['Z'] => some 0
  | sign :: cs => do
    let (h, cs) ← fixedDigits? 2 cs
    let (m, cs) ← fixedDigits? 2 (← expect? ':' cs)
    if !cs.isEmpty || 24 < h || 60 < m then none
    else if sign = '+' then some (h * 3600 + m * 60)
    else if sign = '-' then some (-(h * 3600 + m * 60 : Int))
    else none
  | [] => none

/-- A day at the front of the text, as the number of days since the first day of year 1. Month and
day of the month are read by `digits`, and the day has to exist. -/
def date? (digits : List Char → Option (Nat × List Char)) (cs : List Char) :
    Option (Int × List Char) := do
  let (y, cs) ← fixedDigits? 4 cs
  let (m, cs) ← digits (← expect? '-' cs)
  let (d, cs) ← digits (← expect? '-' cs)
  if m = 0 || 12 < m || d = 0 || daysInMonth y m < d then none
  else some (daysBeforeYear y + daysBeforeMonth y m + (d - 1 : Nat), cs)

/-- A time of day at the front of the text, in nanoseconds. Minutes and seconds are read by
`digits`. -/
def clock? (digits : List Char → Option (Nat × List Char)) (cs : List Char) :
    Option (Nat × List Char) := do
  let (h, cs) ← shortDigits? cs
  let (m, cs) ← digits (← expect? ':' cs)
  let (s, cs) ← digits (← expect? ':' cs)
  let (ns, cs) := fraction cs
  if 24 ≤ h || 60 ≤ m || 60 ≤ s then none
  else some ((h * 3600 + m * 60 + s) * 1000000000 + ns, cs)

def parse? (text : String) : Option Moment := do
  let (days, cs) ← date? (fixedDigits? 2) text.toList
  let (time, cs) ← clock? (fixedDigits? 2) (← expect? 'T' cs)
  let offset ← offset? cs
  some ⟨(days * 86400 - offset) * 1000000000 + time⟩

/-- Whether a text is a moment in the loose form that people write: a day alone, or a day and a time
with a `T` between them and an offset, or with blanks between them and no offset. Fields need no
leading zeros. -/
def isLoose (text : String) : Bool :=
  match date? shortDigits? text.toList with
  | none => false
  | some (_, []) => true
  | some (_, c :: cs) =>
    if c = 'T' || c = 't' then
      ((clock? shortDigits? cs).bind fun (_, rest) => offset? rest).isSome
    else if c = ' ' then
      (clock? shortDigits? (cs.dropWhile (· = ' '))).any fun (_, rest) => rest.isEmpty
    else false

/-- Year, month and day of a number of days since the first day of year 1. Counted from a first of
March, leap days come last in a cycle of 400 years, and the lengths of the months repeat. -/
def civil (day : Int) : Nat × Nat × Nat :=
  let z := day + 306
  let inCycle := (z % 146097).toNat
  let year := (inCycle - inCycle / 1460 + inCycle / 36524 - inCycle / 146096) / 365
  let inYear := inCycle - (365 * year + year / 4 - year / 100)
  let month := (5 * inYear + 2) / 153
  let d := inYear - (153 * month + 2) / 5 + 1
  let m := if month < 10 then month + 3 else month - 9
  (year + (z / 146097).toNat * 400 + (if m ≤ 2 then 1 else 0), m, d)

/-- A number with leading zeros up to a width. -/
def padded (width n : Nat) : String :=
  let s := toString n
  "".pushn '0' (width - s.length) ++ s

/-- The moment in universal time, without trailing zeros in the fraction. -/
def text (t : Moment) : String :=
  let seconds := t.nanoseconds / 1000000000
  let ns := (t.nanoseconds % 1000000000).toNat
  let clock := (seconds % 86400).toNat
  let (y, m, d) := civil (seconds / 86400)
  let fraction := ((padded 9 ns).toList.reverse.dropWhile (· = '0')).reverse
  padded 4 y ++ "-" ++ padded 2 m ++ "-" ++ padded 2 d ++ "T" ++ padded 2 (clock / 3600)
    ++ ":" ++ padded 2 (clock / 60 % 60) ++ ":" ++ padded 2 (clock % 60)
    ++ (if fraction.isEmpty then "" else "." ++ String.ofList fraction) ++ "Z"

end Moment
end Pathwise
