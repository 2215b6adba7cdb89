import Pathwise.Word.Numeral
import Pathwise.Yaml.Cursor

/-!
# How scalars are spelt

A scalar is spelt without quotes, between single or double quotes, or as a block of lines that are
indented. Each reader here starts behind the mark that opens the scalar and gives its text and the
place behind it.
-/

namespace Pathwise.Yaml

/-! ### Without quotes -/

/-- The word at the start of a text. Between brackets it also ends at their marks. -/
def plainWord (flow : Bool) : List Char → List Char
  | [] => []
  | c :: cs =>
    if endsWord (c :: cs) || (c = ':' && endsWord cs)
      || (flow && (",[]\x7b\x7d".contains c
        || (c = '?' && cs.head?.all fun d => d = ' ' || isBreak d))) then []
    else c :: plainWord flow cs

/-- The text of a scalar without quotes, and whether a break comes behind its last word. A line that
starts left of the margin does not belong to it. -/
def plainFrom? (flow : Bool) (margin : Nat) :
    Nat → (text : List Char) → Gap → Cursor → Option (List Char × Bool × Cursor)
  | 0, _, _, _ => none
  | n + 1, text, gap, c =>
    if c.atDocumentMark || c.startsWith "#" then some (text, !gap.breaks.isEmpty, c)
    else
      match plainWord flow c.rest with
      | [] => some (text, !gap.breaks.isEmpty, c)
      | word =>
        let text := text ++ gap.text ++ word
        let c := c.advance word.length
        match c.gap? margin with
        | none => none
        | some (gap, next) =>
          if gap.blanks.isEmpty && gap.breaks.isEmpty then some (text, false, c)
          else if !flow && next.column < margin then some (text, !gap.breaks.isEmpty, next)
          else plainFrom? flow margin n text gap next

def plain? (flow : Bool) (margin : Nat) (c : Cursor) : Option (List Char × Bool × Cursor) :=
  plainFrom? flow margin (c.rest.length + 1) [] {} c

/-! ### Between quotes -/

def singleQuote : Char := Char.ofNat 39

/-- What single characters behind a backslash stand for. -/
def escapes : List (Char × Nat) :=
  [('0', 0), ('a', 7), ('b', 8), ('t', 9), ('\t', 9), ('n', 10), ('v', 11), ('f', 12), ('r', 13),
    ('e', 27), (' ', 32), ('"', 34), (singleQuote, 39), ('\\', 92), ('N', 0x85), ('_', 0xa0),
    ('L', 0x2028), ('P', 0x2029)]

/-- A character by its number in hexadecimal digits. -/
def numbered? (count : Nat) (cs : List Char) : Option (Char × Nat) := do
  let digits := cs.take count
  let n ← Numeral.digits? 16 0 digits
  if digits.length = count && n.isValidChar then some (Char.ofNat n, count + 1) else none

/-- The character that an escape stands for, and the length of the escape behind its backslash. -/
def escape? : List Char → Option (Char × Nat)
  | [] => none
  | 'x' :: cs => numbered? 2 cs
  | 'u' :: cs => numbered? 4 cs
  | 'U' :: cs => numbered? 8 cs
  | c :: _ => (escapes.lookup c).map fun n => (Char.ofNat n, 1)

/-- The text between quotes. Between single quotes, two quotes stand for one; between double quotes,
a backslash escapes what follows. -/
def quotedFrom? (double : Bool) : Nat → (text : List Char) → Cursor → Option (List Char × Cursor)
  | 0, _, _ => none
  | n + 1, text, c =>
    match c.rest with
    | [] => none
    | d :: rest =>
      if endsWord (d :: rest) then do
        let (gap, c) ← c.gap? 0
        if c.atDocumentMark then none else quotedFrom? double n (text ++ gap.text) c
      else if double then
        if d = '"' then some (text, c.skip)
        else if d = '\\' then
          if rest.head?.any isBreak then do
            let (gap, c) ← (c.advance 2).gap? 0
            if c.atDocumentMark then none else quotedFrom? double n (text ++ gap.breaks) c
          else do
            let (e, count) ← escape? rest
            quotedFrom? double n (text ++ [e]) (c.advance (count + 1))
        else quotedFrom? double n (text ++ [d]) c.skip
      else if d ≠ singleQuote then quotedFrom? double n (text ++ [d]) c.skip
      else if rest.head? = some singleQuote then
        quotedFrom? double n (text ++ [d]) (c.advance 2)
      else some (text, c.skip)

def quoted? (double : Bool) (c : Cursor) : Option (List Char × Cursor) :=
  quotedFrom? double (c.rest.length + 1) [] c

/-! ### As a block -/

/-- What becomes of the breaks at the end of a block. -/
inductive Chomping where
  | strip
  | clip
  | keep
deriving DecidableEq

/-- The marks behind the one that opens a block: how it ends and how far it is indented, in either
order. -/
def blockMarks? (c : Cursor) : Option (Chomping × Nat × Cursor) :=
  let chomping (c : Cursor) : Chomping × Cursor :=
    match c.rest.head? with
    | some '-' => (.strip, c.skip)
    | some '+' => (.keep, c.skip)
    | _ => (.clip, c)
  let step (c : Cursor) : Option (Nat × Cursor) :=
    match c.rest.head? with
    | some d =>
      if d = '0' then none else if d.isDigit then some (d.toNat - '0'.toNat, c.skip) else some (0, c)
    | none => some (0, c)
  match chomping c with
  | (.clip, c) => do
    let (n, c) ← step c
    if n = 0 then some (.clip, 0, c)
    else
      let (how, c) := chomping c
      some (how, n, c)
  | (how, c) => do
    let (n, c) ← step c
    some (how, n, c)

/-- Passes over empty lines and over the indentation of the next one. Without an indentation that is
known, it is as deep as it gets; `deepest` is the deepest so far. No tab may stand in it. -/
def indentation? (indent deepest : Nat) (breaks : List Char) (line column : Nat) :
    List Char → Option (List Char × Nat × Cursor)
  | [] => some (breaks, max deepest column, ⟨[], line, column⟩)
  | c :: cs =>
    let inside := indent = 0 || column < indent
    if inside && c = ' ' then indentation? indent deepest breaks line (column + 1) cs
    else if inside && c = '\t' then none
    else if isBreak c then
      indentation? indent (max deepest column) (breaks ++ [c]) (line + 1) 0 cs
    else some (breaks, max deepest column, ⟨c :: cs, line, column⟩)

/-- What was read of a block: its text, the break behind the last line, the empty lines behind that,
and whether the last line starts with a blank. -/
structure BlockText where
  text : List Char := []
  ending : List Char := []
  trailing : List Char := []
  startsBlank : Bool := false

/-- The block with one more line. In a folded block a single break between lines that do not start
with a blank stands for a blank. -/
def BlockText.push (literal : Bool) (b : BlockText) (line ending trailing : List Char) :
    BlockText :=
  let blank := line.head?.any isBlank
  let joint :=
    if !literal && !b.startsBlank && !blank && b.ending = ['\n'] then
      if b.trailing.isEmpty then [' '] else []
    else b.ending
  { text := b.text ++ joint ++ b.trailing ++ line, ending, trailing, startsBlank := blank }

def blockFrom? (literal : Bool) (indent : Nat) : Nat → BlockText → Cursor → Option (BlockText × Cursor)
  | 0, _, _ => none
  | n + 1, b, c =>
    if c.column ≠ indent || c.rest.isEmpty then some (b, c)
    else do
      let line := c.rest.takeWhile (!isBreak ·)
      let c := c.advance line.length
      let ending := c.rest.take 1
      let c := c.skip
      let (trailing, _, c) ← indentation? indent 0 [] c.line c.column c.rest
      blockFrom? literal indent n (b.push literal line ending trailing) c

/-- The text of a block inside what is indented by `outer`, which is negative outside of all. -/
def block? (literal : Bool) (outer : Int) (c : Cursor) : Option (List Char × Cursor) := do
  let (how, step, c) ← blockMarks? c
  let c := c.skipWhile isBlank
  let c := if c.startsWith "#" then c.skipWhile (!isBreak ·) else c
  if c.rest.head?.any (!isBreak ·) then none
  else
    let c := c.skip
    let known := if step = 0 then 0 else outer.toNat + step
    let (breaks, deepest, c) ← indentation? known 0 [] c.line c.column c.rest
    let indent := if known = 0 then max deepest (max (outer + 1).toNat 1) else known
    let (b, c) ← blockFrom? literal indent (c.rest.length + 1) { trailing := breaks } c
    let text := match how with
      | .strip => b.text
      | .clip => b.text ++ b.ending
      | .keep => b.text ++ b.ending ++ b.trailing
    some (text, c)

end Pathwise.Yaml
