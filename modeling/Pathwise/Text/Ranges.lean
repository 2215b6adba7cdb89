/-!
# Ranges of code points

A class of characters is given as an array of ranges, ascending and disjoint, with both ends
included, and looked up by halving.
-/

namespace Pathwise.Text

/-- Binary search in ascending disjoint ranges, in `steps` halvings. -/
def inRanges (ranges : Array (Nat × Nat)) (n : Nat) : (steps low high : Nat) → Bool
  | 0, _, _ => false
  | steps + 1, low, high =>
    let mid := (low + high) / 2
    match ranges[mid]? with
    | none => false
    | some (first, last) =>
      if n < first then inRanges ranges n steps low mid
      else if last < n then inRanges ranges n steps (mid + 1) high
      else true

/-- Membership of a character in a class of fewer than four thousand ranges. -/
def inClass (ranges : Array (Nat × Nat)) (c : Char) : Bool :=
  inRanges ranges c.toNat 12 0 ranges.size

end Pathwise.Text
