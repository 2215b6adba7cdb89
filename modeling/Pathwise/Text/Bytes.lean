import Pathwise.Text.Quoted

/-!
# Bytes as text

Bytes that come from outside need not be text. They are taken apart into characters, and what is part
of no character stays a stray byte. Shown as text, a stray byte is the replacement character; between
quotes it is spelt out.
-/

namespace Pathwise.Text

/-- A character, or a byte that is part of none. -/
inductive Glyph where
  | char (c : Char)
  | stray (b : UInt8)
deriving DecidableEq, Repr

namespace Glyph

def toChar : Glyph → Char
  | .char c => c
  | .stray _ => Char.ofNat 0xfffd

def quoted : Glyph → String
  | .char c => quotedChar c
  | .stray b => "\\x" ++ hexPadded 2 b.toNat

end Glyph

/-- The six bits of a byte that continues a character. -/
def continued? (b : UInt8) : Option Nat :=
  if 0x80 ≤ b && b < 0xc0 then some (b.toNat - 0x80) else none

/-- A code point that needs at least so many bits, as it is spelt with as many bytes as it is. -/
def codePoint? (least n : Nat) : Option Char :=
  if least ≤ n && n ≤ 0x10ffff && !(0xd800 ≤ n && n < 0xe000) then some (Char.ofNat n) else none

/-- The character at the front of some bytes, which are more than one. -/
def longChar? : List UInt8 → Option (Char × List UInt8)
  | a :: b :: rest => do
    let n := a.toNat
    let x ← continued? b
    if 0xc0 ≤ n && n < 0xe0 then return (← codePoint? 0x80 ((n - 0xc0) * 0x40 + x), rest)
    else
      match rest with
      | c :: rest => do
        let y ← continued? c
        if 0xe0 ≤ n && n < 0xf0 then
          return (← codePoint? 0x800 (((n - 0xe0) * 0x40 + x) * 0x40 + y), rest)
        else
          match rest with
          | d :: rest => do
            let z ← continued? d
            if 0xf0 ≤ n && n < 0xf8 then
              return (← codePoint? 0x10000 ((((n - 0xf0) * 0x40 + x) * 0x40 + y) * 0x40 + z), rest)
            else none
          | [] => none
      | [] => none
  | _ => none

/-- Takes bytes apart, in at most so many steps. -/
def glyphsFrom : (fuel : Nat) → List UInt8 → List Glyph
  | 0, _ | _, [] => []
  | fuel + 1, b :: bs =>
    if b < 0x80 then .char (Char.ofNat b.toNat) :: glyphsFrom fuel bs
    else
      match longChar? (b :: bs) with
      | some (c, rest) => .char c :: glyphsFrom fuel rest
      | none => .stray b :: glyphsFrom fuel bs

/-- The characters and stray bytes of some bytes. -/
def glyphs (bytes : List UInt8) : List Glyph := glyphsFrom bytes.length bytes

/-- The text that is shown for bytes. -/
def shownText (gs : List Glyph) : String := String.ofList (gs.map Glyph.toChar)

/-- Bytes between quotes. -/
def quotedGlyphs (gs : List Glyph) : String := "\"" ++ String.join (gs.map Glyph.quoted) ++ "\""

end Pathwise.Text
