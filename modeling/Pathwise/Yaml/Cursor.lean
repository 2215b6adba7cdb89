/-!
# Lines and columns

A YAML text is read by lines and columns. Lines end in several ways that all mean the same, except
for the two separators of Unicode, which stay what they are. Between words there are gaps, and a gap
that runs over lines is folded: a single break stands for a blank, and of several breaks the first
is dropped.
-/

namespace Pathwise.Yaml

/-- The separators of lines and of paragraphs. -/
def isSeparator (c : Char) : Bool := c.toNat = 0x2028 || c.toNat = 0x2029

def isBreak (c : Char) : Bool := c = '\n' || isSeparator c

def isBlank (c : Char) : Bool := c = ' ' || c = '\t'

/-- Characters that a text may have. -/
def isAllowed (c : Char) : Bool :=
  let n := c.toNat
  n = 9 || n = 10 || n = 13 || (0x20 ≤ n && n ≤ 0x7e) || n = 0x85 || (0xa0 ≤ n && n ≤ 0xfffd)
    || 0x10000 ≤ n

/-- The text with one kind of line ends. -/
def unifyBreaks : List Char → List Char
  | [] => []
  | '\r' :: '\n' :: cs => '\n' :: unifyBreaks cs
  | c :: cs => (if c = '\r' || c.toNat = 0x85 then '\n' else c) :: unifyBreaks cs

/-- Nothing more of a word follows. -/
def endsWord : List Char → Bool
  | [] => true
  | c :: _ => isBlank c || isBreak c

/-- A place in a text and what follows there. -/
structure Cursor where
  rest : List Char
  line : Nat := 0
  column : Nat := 0
deriving Inhabited

namespace Cursor

/-- Behind the next character. -/
def skip (c : Cursor) : Cursor :=
  match c.rest with
  | [] => c
  | d :: rest => if isBreak d then ⟨rest, c.line + 1, 0⟩ else ⟨rest, c.line, c.column + 1⟩

/-- Behind the next characters. -/
def advance : Nat → Cursor → Cursor
  | 0, c => c
  | n + 1, c => advance n c.skip

/-- Behind the characters of a kind. -/
def skipWhile (p : Char → Bool) (c : Cursor) : Cursor := c.advance (c.rest.takeWhile p).length

/-- The text stands here at the start of a word of its own. -/
def startsWith (text : String) (c : Cursor) : Bool := text.toList.isPrefixOf c.rest

/-- A mark between documents stands here. -/
def atDocumentMark (c : Cursor) : Bool :=
  c.column = 0 && (c.startsWith "---" || c.startsWith "...") && endsWord (c.rest.drop 3)

end Cursor

/-- What stands between two words. -/
structure Gap where
  blanks : List Char := []
  breaks : List Char := []

namespace Gap

/-- What a gap stands for. -/
def text (g : Gap) : List Char :=
  match g.breaks with
  | [] => g.blanks
  | b :: more =>
    if b ≠ '\n' then b :: more else if more.isEmpty then [' '] else more

/-- The gap at the start of a text. Behind a break, no tab may stand left of the margin. -/
def scan? (margin : Nat) (g : Gap) (line column : Nat) : List Char → Option (Gap × Cursor)
  | [] => some (g, ⟨[], line, column⟩)
  | c :: cs =>
    if isBreak c then scan? margin { g with breaks := g.breaks ++ [c] } (line + 1) 0 cs
    else if isBlank c then
      if g.breaks.isEmpty then
        scan? margin { g with blanks := g.blanks ++ [c] } line (column + 1) cs
      else if c = '\t' && column < margin then none
      else scan? margin g line (column + 1) cs
    else some (g, ⟨c :: cs, line, column⟩)

end Gap

/-- The gap at the cursor and the place behind it. -/
def Cursor.gap? (margin : Nat) (c : Cursor) : Option (Gap × Cursor) :=
  Gap.scan? margin {} c.line c.column c.rest

end Pathwise.Yaml
