/-!
# A 64-bit digest of a text

The XXH64 function with seed 0 on the UTF-8 bytes of a text: four lanes over blocks of 32 bytes,
then the tail by eight, four and one, then a final mix. All arithmetic is modulo `2 ^ 64`.
-/

namespace Pathwise.Text.Digest

def prime1 : UInt64 := 11400714785074694791
def prime2 : UInt64 := 14029467366897019727
def prime3 : UInt64 := 1609587929392839161
def prime4 : UInt64 := 9650029242287828579
def prime5 : UInt64 := 2870177450012600261

/-- Rotation to the left by `n` bits, for `n` from 1 to 63. -/
def rotate (x : UInt64) (n : UInt64) : UInt64 := (x <<< n) ||| (x >>> (64 - n))

/-- The number that bytes spell, the first byte lowest. -/
def littleEndian : List UInt8 → UInt64
  | [] => 0
  | b :: bs => b.toUInt64 ||| (littleEndian bs <<< 8)

def round (acc lane : UInt64) : UInt64 := rotate (acc + lane * prime2) 31 * prime1

def merge (acc lane : UInt64) : UInt64 := (acc ^^^ round 0 lane) * prime1 + prime4

/-- The state of the four lanes. -/
structure Lanes where
  v1 : UInt64 := prime1 + prime2
  v2 : UInt64 := prime2
  v3 : UInt64 := 0
  v4 : UInt64 := 0 - prime1

def Lanes.absorb (s : Lanes) (block : List UInt8) : Lanes where
  v1 := round s.v1 (littleEndian (block.take 8))
  v2 := round s.v2 (littleEndian ((block.drop 8).take 8))
  v3 := round s.v3 (littleEndian ((block.drop 16).take 8))
  v4 := round s.v4 (littleEndian ((block.drop 24).take 8))

/-- Absorbs `count` whole blocks and leaves the tail. -/
def Lanes.absorbAll (s : Lanes) : (count : Nat) → List UInt8 → Lanes × List UInt8
  | 0, bytes => (s, bytes)
  | count + 1, bytes => (s.absorb (bytes.take 32)).absorbAll count (bytes.drop 32)

def Lanes.join (s : Lanes) : UInt64 :=
  let h := rotate s.v1 1 + rotate s.v2 7 + rotate s.v3 12 + rotate s.v4 18
  merge (merge (merge (merge h s.v1) s.v2) s.v3) s.v4

/-- One step per eight bytes of the tail, `count` of them. -/
def tailWords : (count : Nat) → UInt64 → List UInt8 → UInt64 × List UInt8
  | 0, h, bytes => (h, bytes)
  | count + 1, h, bytes =>
    let h := rotate (h ^^^ round 0 (littleEndian (bytes.take 8))) 27 * prime1 + prime4
    tailWords count h (bytes.drop 8)

/-- One step for four bytes of the tail, if there are as many. -/
def tailHalf (h : UInt64) (bytes : List UInt8) : UInt64 × List UInt8 :=
  if bytes.length < 4 then (h, bytes)
  else
    (rotate (h ^^^ (littleEndian (bytes.take 4) * prime1)) 23 * prime2 + prime3, bytes.drop 4)

def tailBytes (h : UInt64) (bytes : List UInt8) : UInt64 :=
  bytes.foldl (fun h b => rotate (h ^^^ (b.toUInt64 * prime5)) 11 * prime1) h

def avalanche (h : UInt64) : UInt64 :=
  let h := (h ^^^ (h >>> 33)) * prime2
  let h := (h ^^^ (h >>> 29)) * prime3
  h ^^^ (h >>> 32)

def ofBytes (bytes : List UInt8) : UInt64 :=
  let size := bytes.length
  let (start, tail) :=
    if size < 32 then (prime5, bytes)
    else
      let (lanes, tail) := (Lanes.absorbAll {} (size / 32) bytes)
      (lanes.join, tail)
  let (h, tail) := tailWords (tail.length / 8) (start + UInt64.ofNat size) tail
  let (h, tail) := tailHalf h tail
  avalanche (tailBytes h tail)

end Digest

/-- The digest of the UTF-8 bytes of a text. -/
def digest (s : String) : UInt64 := Digest.ofBytes s.toUTF8.toList

end Pathwise.Text
