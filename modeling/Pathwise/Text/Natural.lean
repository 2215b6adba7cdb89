import Pathwise.Text.Letter

/-!
# Natural order of names

Names in the order in which people list them: runs of digits compare as numbers, so `x2` comes
before `x10`, and letters come behind other characters, or before them inside a run of digits. The
numbers are signed 64-bit words, so a run of more than eighteen digits may wrap around.
-/

namespace Pathwise.Text

/-- The number at the front of the text, continued from `start`, and how many digits it has. -/
def leadingNumber (start : Int64) (cs : List Char) : Int64 × Nat :=
  let ds := cs.takeWhile isDecimalDigit
  (ds.foldl (fun n d => n * 10 + (Int64.ofNat d.toNat - 48)) start, ds.length)

/-- Compares from the first difference on. `afterNonzero` says that the common part ends in digits
which are not all zero. -/
def differLess (afterNonzero : Bool) (a b : Char) (as bs : List Char) : Bool :=
  let start := if afterNonzero && (a = '0' || b = '0') then 1 else 0
  let (m, i) := leadingNumber start (a :: as)
  let (n, j) := leadingNumber start (b :: bs)
  if m ≠ n then m < n else if i ≠ j then i < j else a < b

def naturalFrom (digits nonzero : Bool) : List Char → List Char → Bool
  | [], bs => !bs.isEmpty
  | _ :: _, [] => false
  | a :: as, b :: bs =>
    if a = b then
      naturalFrom (isDecimalDigit a) (isDecimalDigit a && (nonzero || a ≠ '0')) as bs
    else
      match isLetter a, isLetter b with
      | true, true => a < b
      | true, false => digits
      | false, true => !digits
      | false, false => differLess nonzero a b as bs

/-- The first name comes before the second. -/
def naturalLess (a b : String) : Bool := naturalFrom false false a.toList b.toList

end Pathwise.Text
