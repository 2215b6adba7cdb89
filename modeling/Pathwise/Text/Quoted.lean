import Pathwise.Text.Printable

/-!
# Quoted text

Text between double quotes, one line, every character recoverable: printable characters stand for
themselves, quotes and backslashes are escaped, and what cannot be seen is spelt by its code point. A
single character goes between single quotes.
-/

namespace Pathwise.Text

/-- The lower-case hexadecimal digits of `n`, with zeros in front up to `width`. -/
def hexPadded (width n : Nat) : String :=
  let ds := Nat.toDigits 16 n
  String.ofList (List.replicate (width - ds.length) '0' ++ ds)

/-- A character between quotes of the given kind. -/
def quotedWithin (quote c : Char) : String :=
  if c = quote then s!"\\{c}"
  else if c = '\\' then "\\\\"
  else if isPrintable c then c.toString
  else
    match c.toNat with
    | 7 => "\\a"
    | 8 => "\\b"
    | 9 => "\\t"
    | 10 => "\\n"
    | 11 => "\\v"
    | 12 => "\\f"
    | 13 => "\\r"
    | n =>
      if n < 0x80 then "\\x" ++ hexPadded 2 n
      else if n < 0x10000 then "\\u" ++ hexPadded 4 n
      else "\\U" ++ hexPadded 8 n

def quotedChar (c : Char) : String := quotedWithin '"' c

def quoted (s : String) : String :=
  "\"" ++ String.join (s.toList.map quotedChar) ++ "\""

def quotedLetter (c : Char) : String := "'" ++ quotedWithin (Char.ofNat 39) c ++ "'"

end Pathwise.Text
