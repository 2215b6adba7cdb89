import Pathwise.Json
import Pathwise.Oracle
import Pathwise.Symbolic.Inputs

/-!
# Caching answers

A cache in front of an oracle. Answers are kept under a key made from a digest of the formula's text:
first in a bounded table in memory, then in a store, if there is one. A store that fails is passed over.
Queries that the oracle could not decide are never kept. The digest, the table and the store are what a
cache is made of, `Caching`; any will do.
-/

namespace Pathwise

/-- A decided query as it is kept: models hold 64-bit integers. -/
structure CachedAnswer where
  sat : Bool
  model : List (String × Int64) := []
deriving DecidableEq, Inhabited

namespace CachedAnswer

def ofModel : Option Model → CachedAnswer
  | none => { sat := false }
  | some m => { sat := true, model := m.entries.map fun (n, w) => (n, w.toInt64) }

def toModel (a : CachedAnswer) : Option Model :=
  if a.sat then some ⟨a.model.map fun (n, v) => (n, Word.ofInt64 v)⟩ else none

/-- The answer with the names of its model in order; no model is shown when it is empty. -/
def toJson (a : CachedAnswer) : Json :=
  let model := a.model.mergeSort (fun x y => x.1 ≤ y.1)
  .obj (("sat", .bool a.sat) ::
    if model.isEmpty then [] else [("model", .obj (model.map fun (n, v) => (n, Json.ofInt64 v)))])

end CachedAnswer

/-- Why a store gave no answer. -/
inductive StoreError where
  | notFound
  | failed (text : String)
deriving DecidableEq, Repr

def StoreError.failure : StoreError → Failure
  | .notFound => .of .notFound
  | .failed text => .text text

/-- Keeps answers beyond the life of a cache. -/
structure Store (σ : Type) where
  get : String → σ → Except StoreError CachedAnswer × σ
  put : String → CachedAnswer → σ → Except StoreError Unit × σ

/-- Keeps answers in memory, for as long as there is room. Which of them it drops is its own affair. -/
structure Front (φ : Type) where
  /-- An empty table of a size, if there can be one. -/
  make : Int → Except String φ
  /-- The answer under a key; reading it may change the table. -/
  get? : String → φ → Option (CachedAnswer × φ)
  insert : String → CachedAnswer → φ → φ

/-- What caches are made of. -/
structure Caching (φ σ : Type) where
  digest : String → UInt64
  front : Front φ
  store : Store σ

/-- The table in memory and what has been counted. -/
structure QueryCache (φ : Type) where
  front : φ
  hits : Nat := 0
  misses : Nat := 0

namespace QueryCache

/-- The key of a formula asked in a way named by `kind`. -/
def key (digest : String → UInt64) (kind : String) (formula : Cond) : String :=
  kind ++ ":" ++ Text.hexPadded 16 (digest formula.text).toNat

variable {φ σ : Type}

/-- An empty cache, if there can be a table of the size. -/
def empty? (F : Front φ) (size : Int) : Except String (QueryCache φ) :=
  match F.make size with
  | .error text => .error ("querycache: " ++ text)
  | .ok front => .ok { front }

/-- The answer under a key: from memory, from the store, or from `ask`, after which it is kept. -/
def lookup (K : Caching φ σ) (key : String) (ask : σ → Build (Answer × σ)) (c : QueryCache φ) (s : σ) :
    Build (Answer × QueryCache φ × σ) :=
  match K.front.get? key c.front with
  | some (a, front) => return (.ok a.toModel, { c with front, hits := c.hits + 1 }, s)
  | none =>
    match K.store.get key s with
    | (.ok a, s) =>
      return (.ok a.toModel, { c with front := K.front.insert key a c.front, hits := c.hits + 1 }, s)
    | (.error _, s) => do
      let c := { c with misses := c.misses + 1 }
      let (answer, s) ← ask s
      match answer with
      | .error e => return (.error e, c, s)
      | .ok m =>
        let a := CachedAnswer.ofModel m
        let (_, s) := K.store.put key a s
        return (.ok m, { c with front := K.front.insert key a c.front }, s)

/-- The key under which a question is kept: a search for a counterexample by the conjunction of its
asserts and the opposite of its query. -/
def keyOf (digest : String → UInt64) : Query → Build String
  | .solve formula => return key digest "solve" formula
  | .counterexample asserts query => do
    return key digest "cex" (← Build.all (asserts.map Predicate.expr ++ [query.flip.expr]))

/-- A cache in front of an oracle, with a store over the same state. -/
def oracle (K : Caching φ σ) (inner : Oracle σ) : Oracle (QueryCache φ × σ) where
  ask q := fun (c, s) => do lookup K (← keyOf K.digest q) (inner.ask q) c s

end QueryCache
end Pathwise
