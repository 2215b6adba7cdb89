import Pathwise.Proofs.Inputs
import Pathwise.QueryCache.Lru
import Pathwise.QueryCache.Store

/-! What is kept of answers. The digits of a key tell the digest that it was made from. A table in memory and the
stores behind it give back only what was put into them, under the key that it was put under. A model is kept as
64-bit integers, and applying it afterwards does what applying it before does. -/

namespace Pathwise

variable {φ σ : Type}

/-! ### Digits -/

namespace Text

def hexDigit (c : Char) : Nat := if c.isDigit then c.toNat - '0'.toNat else c.toNat - 'a'.toNat + 10

/-- The number that hexadecimal digits spell. -/
def hexValue (cs : List Char) : Nat := cs.foldl (fun n c => 16 * n + hexDigit c) 0

theorem hexDigit_digitChar : ∀ d < 16, hexDigit (Nat.digitChar d) = d := by decide

theorem hexValue_toDigits (n : Nat) : hexValue (Nat.toDigits 16 n) = n := by
  induction n using Nat.strongRecOn with
  | ind n ih =>
      rw [Nat.toDigits_eq_if (by decide)]
      split_ifs with hn
      · simp [hexValue, hexDigit_digitChar n hn]
      · have hdigit := hexDigit_digitChar (n % 16) (Nat.mod_lt n (by decide))
        have hrest := ih (n / 16) (by omega)
        unfold hexValue at hrest ⊢
        rw [List.foldl_append, hrest, List.foldl_cons, List.foldl_nil, hdigit, Nat.div_add_mod]

theorem hexValue_padded (k n : Nat) : hexValue (List.replicate k '0' ++ Nat.toDigits 16 n) = n := by
  induction k with
  | zero => exact hexValue_toDigits n
  | succ k ih => exact ih

theorem hexPadded_injective {width n n' : Nat} (h : hexPadded width n = hexPadded width n') : n = n' := by
  have hlist := String.ofList_injective h
  rw [← hexValue_padded (width - (Nat.toDigits 16 n).length) n, hlist, hexValue_padded]

end Text

/-! ### Tables and stores -/

theorem mem_of_find?_key {β : Type} {es : List (String × β)} {key : String} {v : β}
    (h : (es.find? (·.1 == key)).map (·.2) = some v) : (key, v) ∈ es := by
  obtain ⟨⟨key', v'⟩, hfind, rfl⟩ := Option.map_eq_some_iff.mp h
  have hkey := List.find?_some hfind
  rw [beq_iff_eq] at hkey
  exact hkey ▸ List.mem_of_find?_eq_some hfind

/-- What can be found in a table is said by `held`. A new table is empty, and using it adds what is written only. -/
structure Front.Keeps (F : Front φ) (held : φ → String → CachedAnswer → Prop) : Prop where
  make : ∀ size t, F.make size = .ok t → ∀ key a, ¬held t key a
  found : ∀ key t a t', F.get? key t = some (a, t') → held t key a
  get : ∀ key t a t', F.get? key t = some (a, t') → ∀ key' a', held t' key' a' → held t key' a'
  insert : ∀ key a t key' a', held (F.insert key a t) key' a' → key' = key ∧ a' = a ∨ held t key' a'

theorem Front.Keeps.empty {F : Front φ} {held : φ → String → CachedAnswer → Prop} (h : F.Keeps held) {size : Int}
    {c : QueryCache φ} (hc : QueryCache.empty? F size = .ok c) (key : String) (a : CachedAnswer) :
    ¬held c.front key a := by
  unfold QueryCache.empty? at hc
  cases hmake : F.make size with
  | error text =>
      rw [hmake] at hc
      cases hc
  | ok t =>
      rw [hmake] at hc
      cases hc
      exact h.make size t hmake key a

namespace Lru

variable {β : Type} {c c' : Lru β} {key : String} {v : β}

theorem mem_insert {e : String × β} (h : e ∈ (c.insert key v).entries) : e = (key, v) ∨ e ∈ c.entries := by
  rcases List.mem_cons.mp (List.mem_of_mem_take h) with heq | hmem
  · exact Or.inl heq
  · exact Or.inr (List.mem_filter.mp hmem).1

theorem mem_of_get? (h : c.get? key = some (v, c')) : (key, v) ∈ c.entries ∧ c'.entries ⊆ c.entries := by
  obtain ⟨v', hfind, heq⟩ := Option.map_eq_some_iff.mp h
  cases heq
  have hmem := mem_of_find?_key hfind
  refine ⟨hmem, fun e he => ?_⟩
  rcases mem_insert he with rfl | he
  · exact hmem
  · exact he

def Held (c : Lru CachedAnswer) (key : String) (a : CachedAnswer) : Prop := (key, a) ∈ c.entries

/-- Whatever its capacity, the table gives back what was put into it only. -/
theorem front_keeps : front.Keeps Held where
  make size t h key a hheld := by
    dsimp only [front] at h
    split_ifs at h
    cases h
    cases hheld
  found _ _ _ _ h := (mem_of_get? h).1
  get _ _ _ _ h _ _ hheld := (mem_of_get? h).2 hheld
  insert _ _ _ _ _ h := (mem_insert h).imp_left Prod.mk.inj

end Lru

/-- What can be found in a store is said by `kept`. Using the store adds to it what is written only. -/
structure Store.Keeps (S : Store σ) (kept : σ → String → CachedAnswer → Prop) : Prop where
  found : ∀ key s a, (S.get key s).1 = .ok a → kept s key a
  get : ∀ key s key' a, kept (S.get key s).2 key' a → kept s key' a
  put : ∀ key a s key' a', kept (S.put key a s).2 key' a' → key' = key ∧ a' = a ∨ kept s key' a'

namespace AnswerTable

variable {t : AnswerTable} {key key' : String} {a a' : CachedAnswer}

theorem mem_set (h : (key', a') ∈ t.set key a) : key' = key ∧ a' = a ∨ (key', a') ∈ t := by
  rcases List.mem_cons.mp h with heq | hmem
  · exact Or.inl (Prod.mk.inj heq)
  · exact Or.inr (List.mem_filter.mp hmem).1

end AnswerTable

namespace StoreHandle

/-- The answers that a store holds, also those that it has not taken over yet. -/
def Kept (t : StoreHandle × Shelf) (key : String) (a : CachedAnswer) : Prop :=
  match t.1 with
  | .none | .remote _ => False
  | .table name => (key, a) ∈ (t.2.table name).entries
  | .file name pending _ => (key, a) ∈ pending ∨ (key, a) ∈ t.2.file name

theorem table_setTable (s : Shelf) (name : String) (t : CountingTable) : (s.setTable name t).table name = t := by
  simp [Shelf.table, Shelf.setTable]

theorem mem_flush {key : String} {a : CachedAnswer} {name : String} {pending : AnswerTable} {s : Shelf}
    (h : (key, a) ∈ (flush name pending s).file name) : (key, a) ∈ pending ∨ (key, a) ∈ s.file name := by
  have hfile : (flush name pending s).file name =
      pending.foldl (fun t e => AnswerTable.set t e.1 e.2) (s.file name) := by
    simp [Shelf.file, Shelf.setFile, flush]
  rw [hfile] at h
  clear hfile
  generalize s.file name = t at h ⊢
  induction pending generalizing t with
  | nil => exact Or.inr h
  | cons e pending ih =>
      rcases ih _ h with hmem | hmem
      · exact Or.inl (List.mem_cons_of_mem _ hmem)
      · rcases AnswerTable.mem_set hmem with ⟨rfl, rfl⟩ | hmem
        · exact Or.inl List.mem_cons_self
        · exact Or.inr hmem

variable {h : StoreHandle} {s : Shelf} {key key' : String} {a a' : CachedAnswer}

theorem kept_of_found (hget : (h.get key s).1 = .ok a) : Kept (h, s) key a := by
  cases h with
  | none => cases hget
  | remote isOpen => cases hget
  | table name =>
      unfold get at hget
      dsimp only at hget
      split_ifs at hget
      split at hget
      · cases hget
        exact mem_of_find?_key ‹_›
      · cases hget
  | file name pending isOpen =>
      unfold get at hget
      dsimp only at hget
      split at hget
      · cases hget
        exact Or.inl (mem_of_find?_key ‹_›)
      · split_ifs at hget
        split at hget
        · cases hget
          exact Or.inr (mem_of_find?_key ‹_›)
        · cases hget

/-- Reading from a table only counts. -/
theorem kept_of_get (hkept : Kept (h, (h.get key s).2) key' a) : Kept (h, s) key' a := by
  cases h with
  | none => exact hkept
  | remote isOpen => exact hkept
  | table name =>
      have hshelf : ((StoreHandle.table name).get key s).2 =
          s.setTable name { s.table name with gets := (s.table name).gets + 1 } := by
        unfold get
        dsimp only
        split_ifs
        · rfl
        · split <;> rfl
      rw [hshelf] at hkept
      change (key', a) ∈ ((s.setTable name _).table name).entries at hkept
      rwa [table_setTable] at hkept
  | file name pending isOpen =>
      have hshelf : ((StoreHandle.file name pending isOpen).get key s).2 = s := by
        unfold get
        dsimp only
        split
        · rfl
        · split_ifs
          · rfl
          · split <;> rfl
      rwa [hshelf] at hkept

theorem kept_of_put (hkept : Kept (h.put key a s).2 key' a') : key' = key ∧ a' = a ∨ Kept (h, s) key' a' := by
  cases h with
  | none => exact hkept.elim
  | remote isOpen => exact hkept.elim
  | table name =>
      unfold put at hkept
      dsimp only at hkept
      split_ifs at hkept
      · change (key', a') ∈ ((s.setTable name _).table name).entries at hkept
        rw [table_setTable] at hkept
        exact Or.inr hkept
      · change (key', a') ∈ ((s.setTable name _).table name).entries at hkept
        rw [table_setTable] at hkept
        exact AnswerTable.mem_set hkept
  | file name pending isOpen =>
      have hpending : (key', a') ∈ pending.set key a ∨ (key', a') ∈ s.file name := by
        unfold put at hkept
        dsimp only at hkept
        split_ifs at hkept
        · exact hkept
        · exact hkept
        · exact mem_flush (hkept.resolve_left List.not_mem_nil)
      rcases hpending with hmem | hmem
      · exact (AnswerTable.mem_set hmem).imp_right Or.inl
      · exact Or.inr (Or.inr hmem)

/-- All stores give back what was put into them only. -/
theorem store_keeps : store.Keeps Kept :=
  ⟨fun _ _ _ => kept_of_found, fun _ _ _ _ => kept_of_get, fun _ _ _ _ _ => kept_of_put⟩

end StoreHandle

/-! ### Models -/

theorem Word.toInt64_ofInt64 (v : Int64) : (Word.ofInt64 v).toInt64 = v := by
  have hwidth : (Word.ofInt64 v).width = 64 := rfl
  rw [Word.toInt64, ← Word.toInt_bits hwidth, Word.bits_ofInt64]
  exact Int64.ofInt_toInt v

namespace CachedAnswer

theorem toModel_ofModel (m : Model) :
    (ofModel (some m)).toModel = some ⟨m.entries.map fun e => (e.1, Word.ofInt64 e.2.toInt64)⟩ := by
  simp [ofModel, toModel]

/-- Applying a model that was kept does what applying the model does. -/
theorem applyModel_stored (m : Model) (inputs : InputMap) :
    inputs.applyModel ⟨m.entries.map fun e => (e.1, Word.ofInt64 e.2.toInt64)⟩ = inputs.applyModel m := by
  have hfind : ∀ name, Model.find? ⟨m.entries.map fun e => (e.1, Word.ofInt64 e.2.toInt64)⟩ name =
      (m.find? name).map fun w => Word.ofInt64 w.toInt64 := by
    intro name
    unfold Model.find?
    rw [List.find?_map, Option.map_map, Option.map_map]
    rfl
  unfold InputMap.applyModel
  congr 1
  refine List.map_congr_left fun i _ => ?_
  rw [hfind]
  cases m.find? i.name with
  | none => rfl
  | some w => simp only [Option.map_some, Word.toInt64_ofInt64]

end CachedAnswer
end Pathwise
