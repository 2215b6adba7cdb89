import Pathwise.Json.Schema
import Pathwise.Oracle.Standard

/-!
# Oracles as documents

An oracle can be described by a document: its kind, and what it needs. A cache names the oracle
behind it and the store that it shares with others.
-/

namespace Pathwise

/-- A field is smaller than the value that it is a part of. -/
theorem Json.sizeOf_get?_lt {j k : Json} {name : String} (h : j.get? name = some k) :
    sizeOf k < sizeOf j := by
  cases j with
  | obj fields =>
    obtain ⟨a, ha, rfl⟩ := Option.map_eq_some_iff.1 h
    have hm : a ∈ fields := List.mem_reverse.1 (List.mem_of_find?_eq_some ha)
    have h₁ := List.sizeOf_lt_of_mem hm
    obtain ⟨n, v⟩ := a
    simp only [Prod.mk.sizeOf_spec, Json.obj.sizeOf_spec] at h₁ ⊢
    omega
  | _ => simp [Json.get?] at h

/-- Integers of a list, as 64-bit words. -/
def Json.int64 (j : Json) : Int64 := Int64.ofInt (j.int?.getD 0)

/-- A model gives an integer of 64 bits, or an integer and its width, to each name. -/
def Model.ofJson (j : Json) : Model :=
  ⟨j.fields.map fun (n, v) =>
    match v with
    | .arr [x, width] => (n, Word.ofInt (width.int?.getD 0).toNat (x.int?.getD 0))
    | v => (n, Word.ofInt64 v.int64)⟩

def PreparedAnswer.ofJson (j : Json) : PreparedAnswer :=
  match j.get "err" with
  | .str "unknown" => .unknown
  | .str text => .failure text
  | _ => if (j.get "sat").bool?.getD false then .sat (.ofJson (j.get "model")) else .unsat

def CachedAnswer.ofJson (j : Json) : CachedAnswer :=
  { sat := (j.get "sat").bool?.getD false
    model := (j.get "model").fields.map fun (n, v) => (n, v.int64) }

/-- The store of a description. What is said about a shared table is added to it. -/
def StoreHandle.ofJson (j : Json) (sh : OracleShared) : StoreHandle × OracleShared :=
  let name := (j.get "name").str?.getD ""
  match j.get "type" with
  | .str "map" =>
    let t := sh.shelf.table name
    let entries := (j.get "entries").fields.foldl
      (fun es (key, a) => AnswerTable.set es key (.ofJson a)) t.entries
    let t := { t with
      entries
      failGet := (j.get "fail_get").bool?.getD false
      failPut := (j.get "fail_put").bool?.getD false }
    (.table name, { sh with shelf := sh.shelf.setTable name t })
  | .str "bolt" => (.file name [] true, sh)
  | .str "redis" => (.remote true, sh)
  | _ => (.none, sh)

/-- The oracle of a description, if it describes one. What the description says about shared tables
is kept even if it does not lead to an oracle. -/
def StandardOracle.ofJson? (j : Json) :
    ExceptT Failure (StateM OracleShared) (Option StandardOracle) := do
  match j.get "kind" with
  | .str "grid" => return some (.grid ((j.get "values").items.map Json.int64))
  | .str "script" => return some (.prepared ((j.get "answers").items.map .ofJson))
  | .str "solver" => return some .solver
  | .str "factory" =>
    match configuredOracle ((j.get "backend").str?.getD "") with
    | .ok o => return some o
    | .error e => throw e.failure
  | .str "cache" =>
    let inner ← match _h : j.get? "inner" with
      | none => pure none
      | some described => ofJson? described
    let store ← modifyGet (StoreHandle.ofJson (j.get "store"))
    match QueryCache.empty? Lru.front ((j.get "size").int?.getD 0) with
    | .ok c => return some (.cached c store (inner.getD .absent))
    | .error e => throw (.text e)
  | _ => return none
termination_by sizeOf j
decreasing_by exact Json.sizeOf_get?_lt _h

end Pathwise
