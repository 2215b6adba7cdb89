import Pathwise.Text.Quoted
import Pathwise.Yaml.Cursor
import Pathwise.Yaml.Scalar

/-!
# Writing YAML scalars

A text is written so that it is read back as that text: as it is where possible, between quotes where
it would stand for something else or would be cut short, and as a block of lines where it has
several.
-/

namespace Pathwise.Yaml

/-! ### What characters allow -/

/-- Characters that can be written as they are. -/
def isWritable (c : Char) : Bool :=
  let n := c.toNat
  n = 10 || (0x20 ≤ n && n ≤ 0x7e) || (0xa0 ≤ n && n ≤ 0xfffd && n ≠ 0xfeff)

/-- Some character of one kind comes right before one of another kind. -/
def hasPair (p q : Char → Bool) : List Char → Bool
  | a :: b :: cs => (p a && q b) || hasPair p q (b :: cs)
  | _ => false

def isSpace (c : Char) : Bool := c = ' '

/-- The text can stand between single quotes. -/
def canBeSingle (cs : List Char) : Bool :=
  cs.all isWritable && !hasPair isBreak isSpace cs && !hasPair isSpace isBreak cs

/-- The text can stand as a block. -/
def canBeBlock (cs : List Char) : Bool :=
  cs.all (fun c => isWritable c || c = '\t') && !hasPair isSpace isBreak cs
    && !(cs.getLast?.any isSpace)

/-- A colon or a number sign that would end a scalar. -/
def hasMark (previous : Char) : List Char → Bool
  | [] => false
  | c :: cs =>
    (c = ':' && cs.head?.all isBlank) || (c = '#' && isBlank previous) || hasMark c cs

/-- The text starts with something that has a meaning of its own. -/
def startsWithMark (cs : List Char) : Bool :=
  ['-', '-', '-'].isPrefixOf cs || ['.', '.', '.'].isPrefixOf cs ||
    match cs with
    | [] => false
    | c :: rest =>
      "#,[]\x7b\x7d&*!|>'\"%@\x60".contains c
        || ((c = '?' || c = ':' || c = '-') && rest.head?.all isBlank)

/-- The text can stand without quotes, as far as its characters go. -/
def canBePlain (cs : List Char) : Bool :=
  canBeSingle cs && !(cs.any isBreak) && !(cs.head?.any isSpace) && !(cs.getLast?.any isSpace)
    && !startsWithMark cs && !hasMark 'x' (cs.drop 1)

/-! ### What a text would be taken for -/

/-- A number in the base of sixty, such as 1:30, which other versions of the format know. -/
def isSexagesimal (text : String) : Bool :=
  match text.splitOn ":" with
  | first :: second :: rest =>
    let unsigned := if first.startsWith "-" || first.startsWith "+" then (first.drop 1).toString
      else first
    let minutes (s : String) : Bool :=
      s.all Char.isDigit && (s.length = 1 || (s.length = 2 && s < "60"))
    let parts := second :: rest
    let last := (parts.getLast?.getD "").splitOn "."
    unsigned.toList.head?.any Char.isDigit && unsigned.all (fun c => c.isDigit || c = '_')
      && parts.dropLast.all minutes && minutes (last.headD "")
      && last.length ≤ 2 && (last.drop 1).all (·.all fun c => c.isDigit || c = '_')
  | _ => false

/-- Without quotes, some version of the format would take the text for something else. -/
def isAmbiguous (text : String) : Bool :=
  Scalar.ofPlain text ≠ .text || (Scalar.truthWords.lookup text).isSome || isSexagesimal text

/-! ### Styles -/

inductive Style where
  | plain
  | single
  | double
  | block
deriving DecidableEq, Repr

/-- How a text is written. -/
def style (text : String) : Style :=
  let cs := text.toList
  if cs.contains '\n' then if canBeBlock cs then .block else .double
  else if isAmbiguous text then .double
  else if canBePlain cs then .plain
  else if canBeSingle cs then .single
  else .double

/-- Letters that stand for characters behind a backslash. -/
def shortEscapes : List (Nat × Char) :=
  [(0, '0'), (7, 'a'), (8, 'b'), (9, 't'), (10, 'n'), (11, 'v'), (12, 'f'), (13, 'r'), (27, 'e'),
    (34, '"'), (92, '\\'), (0x85, 'N'), (0xa0, '_'), (0x2028, 'L'), (0x2029, 'P')]

def escaped (c : Char) : String :=
  let n := c.toNat
  match shortEscapes.lookup n with
  | some letter => "\\" ++ letter.toString
  | none =>
    if n ≤ 0xff then "\\x" ++ (Text.hexPadded 2 n).toUpper
    else if n ≤ 0xffff then "\\u" ++ (Text.hexPadded 4 n).toUpper
    else "\\U" ++ (Text.hexPadded 8 n).toUpper

/-- A text between double quotes. One that starts with a mark of the byte order is escaped as a
whole. -/
def doubleQuoted (cs : List Char) : String :=
  let whole := cs.head?.any (·.toNat = 0xfeff)
  let written (c : Char) : String :=
    if whole || !isWritable c || isBreak c || c = '"' || c = '\\' then escaped c else c.toString
  "\"" ++ String.join (cs.map written) ++ "\""

/-- The text with a margin at the start of its lines, and of the first one if `fresh` is set. Empty
lines have none. -/
def indented (margin : List Char) (fresh : Bool) : List Char → List Char
  | [] => []
  | c :: cs =>
    if isBreak c then c :: indented margin true cs
    else (if fresh then margin else []) ++ c :: indented margin false cs

/-- A text between single quotes; a quote is written twice. -/
def singleQuoted (margin : List Char) (cs : List Char) : String :=
  let quote := String.singleton (Char.ofNat 39)
  quote ++ (String.ofList (indented margin false cs)).replace quote (quote ++ quote) ++ quote

/-- The marks of a block: its indentation where the text does not show it, and what becomes of the
breaks at its end. -/
def blockMarks (cs : List Char) : String :=
  let starts := cs.head?.any fun c => isSpace c || isBreak c
  let step := if starts then "4" else ""
  match cs.reverse with
  | [] => step ++ "-"
  | [c] => step ++ if isBreak c then "+" else "-"
  | c :: d :: _ => step ++ if !isBreak c then "-" else if isBreak d then "+" else ""

/-- A text as a block. A break at its start is the one that ends the line of the marks. -/
def blockText (margin : List Char) (cs : List Char) : String :=
  "|" ++ blockMarks cs ++ (if cs.head?.any isBreak then "" else "\n")
    ++ String.ofList (indented margin true cs)

/-- A text as a scalar, with a margin for further lines. -/
def scalarText (margin : String) (text : String) : String :=
  match style text with
  | .plain => text
  | .single => singleQuoted margin.toList text.toList
  | .double => doubleQuoted text.toList
  | .block => blockText margin.toList text.toList

/-- A scalar up to the end of its line. -/
def scalarLine (margin : String) (text : String) : String :=
  let written := scalarText margin text
  if style text = .block && text.toList.getLast?.any isBreak then written else written ++ "\n"

/-- A key at the start of a line, up to its colon. A long one, or one of several lines, has a mark
before it and a line of its own. -/
def keyText (margin : String) (text : String) : String :=
  if (unifyBreaks text.toList).any isBreak || 128 < text.utf8ByteSize then
    margin ++ "? " ++ scalarLine (margin ++ "    ") text ++ margin ++ ":"
  else margin ++ scalarText margin text ++ ":"

end Pathwise.Yaml
