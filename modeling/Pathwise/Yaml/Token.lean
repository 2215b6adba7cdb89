import Pathwise.Yaml.Spelling

/-!
# The tokens of a YAML text

A text falls into tokens. Some are written and some only follow from the indentation: where it gets
deeper a collection starts, where it gets less deep collections end. A key is only known to be one
when its colon comes, so a token that may start a key is kept in mind, and its mark is put before it
later. A key has to stand on one line and may not be long.
-/

namespace Pathwise.Yaml

inductive Token where
  /-- The version of the format, and whether it is supported. -/
  | version (supported : Bool)
  | documentStart
  | documentEnd
  | textEnd
  | blockList
  | blockMap
  | blockEnd
  | listOpen
  | listClose
  | mapOpen
  | mapClose
  | comma
  | dash
  | key
  | value
  /-- Gives a name to the node that follows. -/
  | anchor (name : String)
  | reference (name : String)
  | tag (name : String)
  | scalar (text : String) (plain : Bool)
deriving DecidableEq, Repr

/-- A token that may turn out to start a key. Where nothing else can stand it is required to. -/
structure PossibleKey where
  number : Nat
  line : Nat
  column : Nat
  required : Bool

/-- A key that is still possible at a place. -/
def PossibleKey.isOpen (k : PossibleKey) (c : Cursor) : Bool :=
  k.line = c.line && c.column ≤ k.column + 1024

/-- The state between two tokens. -/
structure Lexer where
  cursor : Cursor
  tokens : Array Token := #[]
  /-- The column of the innermost block, and of those around it. -/
  indent : Int := -1
  indents : List Int := []
  keyAllowed : Bool := true
  /-- What may be a key, for the brackets that are open, innermost first, and outside of them. -/
  keys : List (Option PossibleKey) := [none]

namespace Lexer

/-- Inside of brackets, where indentation does not count. -/
def inFlow (s : Lexer) : Bool := 1 < s.keys.length

def push (s : Lexer) (t : Token) : Lexer := { s with tokens := s.tokens.push t }

/-- Puts a token in front of the one with a number. -/
def insert (s : Lexer) (number : Nat) (t : Token) : Lexer :=
  { s with tokens := (s.tokens.extract 0 number).push t ++ s.tokens.extract number s.tokens.size }

/-- Moves behind the next characters. -/
def advance (s : Lexer) (n : Nat) : Lexer := { s with cursor := s.cursor.advance n }

/-- The next character, and blanks and the end of lines count as one. -/
def peek (s : Lexer) : Char := s.cursor.rest.head?.getD '\n'

/-! ### Possible keys -/

/-- Gives up the innermost possible key; one that is required cannot be given up. -/
def dropKey? (s : Lexer) : Option Lexer :=
  match s.keys with
  | some k :: ks => if k.required then none else some { s with keys := none :: ks }
  | _ => some s

/-- Notes that the next token may start a key. -/
def saveKey? (s : Lexer) : Option Lexer :=
  if s.keyAllowed then do
    let s ← s.dropKey?
    let required := !s.inFlow && s.indent = s.cursor.column
    let k : PossibleKey := ⟨s.tokens.size, s.cursor.line, s.cursor.column, required⟩
    some { s with keys := some k :: s.keys.drop 1 }
  else some s

/-! ### Indentation -/

/-- Opens a block at a column that is deeper than the innermost one. -/
def roll (s : Lexer) (column number : Nat) (t : Token) : Lexer :=
  if !s.inFlow && s.indent < column then
    { s.insert number t with indent := column, indents := s.indent :: s.indents }
  else s

/-- Closes the blocks that are deeper than a column. -/
def unrollFrom (column : Int) : List Int → Lexer → Lexer
  | [], s => s
  | i :: is, s =>
    if column < s.indent then
      unrollFrom column is { s.push .blockEnd with indent := i, indents := is }
    else s

def unroll (s : Lexer) (column : Int) : Lexer :=
  if s.inFlow then s else unrollFrom column s.indents s

/-! ### Blanks and comments -/

/-- Passes over a comment, and over those on lines of their own behind it. -/
def skipComments : Nat → Cursor → Cursor
  | 0, c => c
  | n + 1, c =>
    let c := c.skipWhile (!isBreak ·)
    let next := c.skipWhile fun d => isBlank d || d = '\n'
    if next.startsWith "#" then skipComments n next else c

/-- Passes over what stands before the next token. A tab may not stand where a key may. -/
def skipBlanks : Nat → Lexer → Lexer
  | 0, s => s
  | n + 1, s =>
    let tabs := s.inFlow || !s.keyAllowed
    let c := s.cursor.skipWhile fun d => d = ' ' || (tabs && d = '\t')
    let c := if c.startsWith "#" then skipComments c.rest.length c else c
    if c.rest.head?.any isBreak then
      skipBlanks n { s with cursor := c.skip, keyAllowed := s.keyAllowed || !s.inFlow }
    else { s with cursor := c }

/-- Passes over a comment on the line of the last token. -/
def skipComment (s : Lexer) : Lexer :=
  let c := s.cursor.skipWhile isBlank
  if c.startsWith "#" then { s with cursor := c.skipWhile (!isBreak ·) } else s

/-! ### Tokens -/

/-- A directive, of which only the version is known. -/
def directive? (s : Lexer) : Option Lexer := do
  let s ← (s.unroll (-1)).dropKey?
  if !s.cursor.startsWith "%YAML" || !endsWord (s.cursor.rest.drop 5) then none
  else
    let c := (s.cursor.advance 5).skipWhile isBlank
    let word := c.rest.takeWhile fun d => !(isBlank d || isBreak d)
    let major := word.takeWhile Char.isDigit
    let minor := (word.dropWhile Char.isDigit).drop 1
    let next := (c.advance word.length).skipWhile isBlank
    let next := if next.startsWith "#" then next.skipWhile (!isBreak ·) else next
    if major.isEmpty || minor.isEmpty || !minor.all Char.isDigit
      || word ≠ major ++ '.' :: minor || next.rest.head?.any (!isBreak ·) then none
    else
      let supported := Numeral.digits? 10 0 major = some 1 && Numeral.digits? 10 0 minor = some 1
      some { s.push (.version supported) with keyAllowed := false, cursor := next.skip }

/-- The mark of a document. -/
def documentMark? (s : Lexer) : Option Lexer := do
  let s ← (s.unroll (-1)).dropKey?
  let mark := if s.peek = '-' then Token.documentStart else .documentEnd
  some { (s.push mark).advance 3 with keyAllowed := false }

/-- The end of the text. -/
def finish? (s : Lexer) : Option Lexer := do
  some ((← (s.unroll (-1)).dropKey?).push .textEnd)

/-- A bracket that opens. -/
def open? (s : Lexer) (t : Token) : Option Lexer := do
  let s ← s.saveKey?
  some { (s.push t).advance 1 with keyAllowed := true, keys := none :: s.keys }.skipComment

/-- A bracket that closes. -/
def close? (s : Lexer) (t : Token) : Option Lexer := do
  let s ← s.dropKey?
  let keys := if s.inFlow then s.keys.drop 1 else s.keys
  some { (s.push t).advance 1 with keyAllowed := false, keys }.skipComment

def comma? (s : Lexer) : Option Lexer := do
  let s ← s.dropKey?
  some { (s.push .comma).advance 1 with keyAllowed := true }.skipComment

/-- A dash in front of an entry. -/
def dash? (s : Lexer) : Option Lexer := do
  if !s.inFlow && !s.keyAllowed then none
  else
    let s ← (s.roll s.cursor.column s.tokens.size .blockList).dropKey?
    some { (s.push .dash).advance 1 with keyAllowed := true }

/-- A question mark in front of a key. -/
def key? (s : Lexer) : Option Lexer := do
  if !s.inFlow && !s.keyAllowed then none
  else
    let s ← (s.roll s.cursor.column s.tokens.size .blockMap).dropKey?
    some { (s.push .key).advance 1 with keyAllowed := !s.inFlow }.skipComment

/-- A colon whose key has a mark of its own. -/
def valueAlone? (s : Lexer) : Option Lexer :=
  if !s.inFlow && !s.keyAllowed then none
  else
    let s := s.roll s.cursor.column s.tokens.size .blockMap
    some { (s.push .value).advance 1 with keyAllowed := !s.inFlow }.skipComment

/-- A colon behind a key. -/
def value? (s : Lexer) : Option Lexer :=
  match s.keys with
  | some k :: ks =>
    if k.isOpen s.cursor then
      let s := (s.insert k.number .key).roll k.column k.number .blockMap
      some { (s.push .value).advance 1 with keyAllowed := false, keys := none :: ks }.skipComment
    else if k.required then none
    else valueAlone? { s with keys := none :: ks }
  | _ => s.valueAlone?

def isNameChar (c : Char) : Bool := c.isAlphanum || c = '_' || c = '-'

/-- A name behind its mark. -/
def named? (s : Lexer) (token : String → Token) : Option Lexer := do
  let s ← s.saveKey?
  let name := (s.cursor.rest.drop 1).takeWhile isNameChar
  let s := s.advance (name.length + 1)
  if name.isEmpty || !(endsWord s.cursor.rest || "?:,]\x7d%@\x60".contains s.peek) then none
  else some { s.push (token (String.ofList name)) with keyAllowed := false }.skipComment

def isTagChar (c : Char) : Bool := isNameChar c || ";/?:@&=+$,.!~*'()[]%".contains c

/-- The name of a tag. Those of the format itself have two exclamation marks, or a long form between
angle brackets. Other groups of tags would have to be declared. -/
def tagName? (cs : List Char) : Option String :=
  match cs with
  | '!' :: '<' :: inner =>
    let name := inner.dropLast
    let family := "tag:yaml.org,2002:"
    if inner.getLast? ≠ some '>' || name.isEmpty || !name.all isTagChar then none
    else if family.toList.isPrefixOf name then
      some ("!!" ++ String.ofList (name.drop family.length))
    else some (String.ofList name)
  | '!' :: '!' :: name =>
    if name.isEmpty || !name.all isTagChar then none else some (String.ofList cs)
  | _ =>
    let rest := (cs.drop 1).dropWhile isNameChar
    if rest.head? = some '!' || !rest.all isTagChar then none else some (String.ofList cs)

/-- A tag. -/
def tag? (s : Lexer) : Option Lexer := do
  let s ← s.saveKey?
  let word := s.cursor.rest.takeWhile fun d => !(isBlank d || isBreak d)
  let name ← tagName? word
  some { (s.push (.tag name)).advance word.length with keyAllowed := false }.skipComment

/-- A block of lines. -/
def block? (s : Lexer) : Option Lexer := do
  let s ← s.dropKey?
  let (text, c) ← Yaml.block? (s.peek = '|') s.indent s.cursor.skip
  some { s.push (.scalar (String.ofList text) false) with cursor := c, keyAllowed := true }

/-- A scalar between quotes. -/
def quoted? (s : Lexer) : Option Lexer := do
  let s ← s.saveKey?
  let (text, c) ← Yaml.quoted? (s.peek = '"') s.cursor.skip
  some { s.push (.scalar (String.ofList text) false) with cursor := c, keyAllowed := false }.skipComment

/-- A scalar without quotes. A key may follow on a new line. -/
def plain? (s : Lexer) : Option Lexer := do
  let s ← s.saveKey?
  let (text, broken, c) ← Yaml.plain? s.inFlow (s.indent + 1).toNat s.cursor
  let s := { s.push (.scalar (String.ofList text) true) with cursor := c, keyAllowed := broken }
  some (if broken then s else s.skipComment)

/-- Whether a scalar without quotes can start here. -/
def startsPlain (s : Lexer) : Bool :=
  let c := s.peek
  let next := s.cursor.rest.drop 1
  !(isBlank c || isBreak c || "-?:,[]\x7b\x7d#&*!|>'\"%@\x60".contains c)
    || (c = '-' && !(next.head?.any isBlank))
    || (!s.inFlow && (c = '?' || c = ':') && !endsWord next)

/-- The token that stands at the cursor. -/
def token? (s : Lexer) : Option Lexer :=
  let alone := endsWord (s.cursor.rest.drop 1)
  match s.peek with
  | '[' => s.open? .listOpen
  | '\x7b' => s.open? .mapOpen
  | ']' => s.close? .listClose
  | '\x7d' => s.close? .mapClose
  | ',' => s.comma?
  | '*' => s.named? .reference
  | '&' => s.named? .anchor
  | '!' => s.tag?
  | '"' => s.quoted?
  | c =>
    if c = '-' && alone then s.dash?
    else if c = '?' && (s.inFlow || alone) then s.key?
    else if c = ':' && (s.inFlow || alone) then s.value?
    else if (c = '|' || c = '>') && !s.inFlow then s.block?
    else if c = singleQuote then s.quoted?
    else if s.startsPlain then s.plain?
    else none

/-- Reads one more token, and those that its indentation implies. -/
def next? (s : Lexer) : Option Lexer :=
  let s := skipBlanks (s.cursor.rest.length + 1) s
  let s := s.unroll s.cursor.column
  if s.cursor.rest.isEmpty then s.finish?
  else if s.cursor.column = 0 && s.peek = '%' then s.directive?
  else if s.cursor.atDocumentMark then s.documentMark?
  else s.token?

/-- Reads tokens up to the end of the text or the first fault, and says which of them it was. -/
def scan : Nat → Lexer → Lexer × Bool
  | 0, s => (s, false)
  | n + 1, s =>
    match s.next? with
    | none => (s, false)
    | some s => if s.tokens.back? = some .textEnd then (s, true) else scan n s

/-- The tokens before a fault that can be relied on: the last two may still get something in front
of them, and so may a token that is still a possible key. -/
def settled (s : Lexer) : List Token :=
  let isPending (number : Nat) : Bool :=
    s.keys.any fun k => k.any fun k => k.number = number && (k.required || k.isOpen s.cursor)
  let numbers := (List.range (s.tokens.size - 2)).takeWhile (!isPending ·)
  s.tokens.toList.take numbers.length

end Lexer

/-- The tokens of a text, up to its end or to where a fault makes them uncertain. -/
def Token.ofText (text : List Char) : List Token :=
  let (s, complete) := Lexer.scan (text.length + 1) { cursor := { rest := text } }
  if complete then s.tokens.toList else s.settled

end Pathwise.Yaml
