/-!
# Path patterns

In a pattern a star stands for any text in a name, a question mark for a letter, and a set such as
`[a-z]` or `[^a-z]` for a letter in it or outside of it. A backslash takes the meaning away from what
follows. A pattern for paths is matched directory by directory, so it has to make sense up to each of
its slashes.
-/

namespace Pathwise.Text

/-- What follows a letter of a set, which cannot be the end. -/
def afterLetter? : List Char → Option (List Char)
  | [] | '-' :: _ | ']' :: _ | ['\\'] => none
  | '\\' :: _ :: rest | _ :: rest => if rest.isEmpty then none else some rest

/-- What follows the letters and ranges of a set, of which there is at least one. Every letter takes
one unit of fuel. -/
def afterSet? : (fuel : Nat) → List Char → Option (List Char)
  | 0, _ => none
  | fuel + 1, cs => do
    match ← afterLetter? cs with
    | ']' :: rest => return rest
    | '-' :: rest =>
      match ← afterLetter? rest with
      | ']' :: rest => return rest
      | rest => afterSet? fuel rest
    | rest => afterSet? fuel rest

/-- Whether a pattern makes sense. Every character takes one unit of fuel. -/
def isPatternWithin : (fuel : Nat) → List Char → Bool
  | 0, cs => cs.isEmpty
  | _ + 1, [] => true
  | _ + 1, ['\\'] => false
  | fuel + 1, '\\' :: _ :: rest => isPatternWithin fuel rest
  | fuel + 1, '[' :: rest =>
    match afterSet? rest.length (if rest.head? = some '^' then rest.tail else rest) with
    | some rest => isPatternWithin fuel rest
    | none => false
  | fuel + 1, _ :: rest => isPatternWithin fuel rest

/-- Whether a pattern for paths makes sense. -/
def isPathPattern (s : String) : Bool :=
  let parts := s.splitOn "/"
  (List.range parts.length).all fun i =>
    let cs := ("/".intercalate (parts.take (i + 1))).toList
    isPatternWithin cs.length cs

/-- Whether a text means something else as a pattern. -/
def isSpecialPattern (s : String) : Bool := s.any ("*?[\\".toList.contains ·)

end Pathwise.Text
