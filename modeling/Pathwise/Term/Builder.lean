import Std.Data.TreeMap
import Pathwise.Term

/-!
# The term builder

A builder interns terms: a draft that looks like a term it already holds is answered with that term,
any other draft becomes a new term under the next free number. Terms are filed in buckets by a
fingerprint of the node and of its children's numbers. The fingerprint only says where to look; what
counts as the same node is decided by `Term.alike`, so a builder may take its fingerprints by any
function, `Builder.scatter`.
-/

namespace Pathwise

namespace Term

/-- Same operator, same leaf and the same numbers of children, whatever the nodes' own numbers. -/
def alike {k : Ty} : Term k → Term k → Bool
  | .symbol _ n w, .symbol _ n' w' => w == w' && n == n'
  | .const _ c, .const _ c' => decide (c = c')
  | .ite _ c a b, .ite _ c' a' b' => c.id == c'.id && a.id == a'.id && b.id == b'.id
  | .unary _ op a, .unary _ op' a' => op == op' && a.id == a'.id
  | .binary _ op a b, .binary _ op' a' b' => op == op' && a.id == a'.id && b.id == b'.id
  | .nary _ op as, .nary _ op' as' => op == op' && as.map id == as'.map id
  | .truth _ b, .truth _ b' => b == b'
  | .not _ a, .not _ a' => a.id == a'.id
  | .compare _ op a b, .compare _ op' a' b' => op == op' && a.id == a'.id && b.id == b'.id
  | .junction _ op as, .junction _ op' as' => op == op' && as.map id == as'.map id
  | _, _ => false

/-- Numbers folded into one small number. -/
def fingerprintOf (ns : List Nat) : Nat :=
  ns.foldl (fun h n => (h * 31 + n) % 1073741789) 7

/-- The node in numbers: its kind, its leaf and its children. -/
def signature {k : Ty} (t : Term k) : List Nat :=
  t.code :: match t with
    | .symbol _ name width => width :: name.toList.map Char.toNat
    | .const _ c => [c.width, c.value]
    | .ite _ c a b => [c.id, a.id, b.id]
    | .unary _ _ a => [a.id]
    | .binary _ _ a b => [a.id, b.id]
    | .nary _ _ as => as.map id
    | .truth _ b => [b.toNat]
    | .not _ a => [a.id]
    | .compare _ _ a b => [a.id, b.id]
    | .junction _ _ as => as.map id

end Term

/-- The interned terms by fingerprint, the number given last, and what has been counted. -/
structure Builder where
  /-- The fingerprint of a signature. -/
  scatter : List Nat → Nat := Term.fingerprintOf
  words : Std.TreeMap Nat (List (Term .word)) := {}
  conds : Std.TreeMap Nat (List (Term .bool)) := {}
  lastId : Nat := 0
  lookups : Nat := 0
  hits : Nat := 0
  wordCount : Nat := 0
  condCount : Nat := 0

namespace Builder

instance : Inhabited Builder := ⟨{}⟩

/-- Where in the table a node is filed. -/
def fingerprint (b : Builder) {k : Ty} (t : Term k) : Nat := b.scatter t.signature

/-- The terms filed under a fingerprint. -/
def bucket (b : Builder) (fp : Nat) : (k : Ty) → List (Term k)
  | .word => b.words.getD fp []
  | .bool => b.conds.getD fp []

/-- Files a term behind those of its bucket. -/
def file (b : Builder) (fp : Nat) {k : Ty} (t : Term k) : Builder :=
  match k with
  | .word => { b with
      words := b.words.insert fp (b.words.getD fp [] ++ [t]), wordCount := b.wordCount + 1 }
  | .bool => { b with
      conds := b.conds.insert fp (b.conds.getD fp [] ++ [t]), condCount := b.condCount + 1 }

end Builder

/-- Computations that may intern terms. -/
abbrev Build := StateM Builder

namespace Build

/-- The interned term for a draft. -/
def intern {k : Ty} (draft : Term k) : Build (Term k) := fun b =>
  let b := { b with lookups := b.lookups + 1 }
  let fp := b.fingerprint draft
  match (b.bucket fp k).find? draft.alike with
  | some t => (t, { b with hits := b.hits + 1 })
  | none =>
    let t := draft.withId (b.lastId + 1)
    (t, { b with lastId := b.lastId + 1 }.file fp t)

def const (c : Word) : Build (Term .word) := intern (.const 0 c)

/-- The constant of an integer at a width. -/
def int (v : Int) (width : Nat) : Build (Term .word) := const (.ofInt width v)

def symbol (name : String) (width : Nat) : Build (Term .word) := intern (.symbol 0 name width)

def truth (b : Bool) : Build Cond := intern (.truth 0 b)

end Build
end Pathwise
