import Mathlib.Data.List.GetD
import Mathlib.Logic.Function.Basic
import Mathlib.Logic.Relation
import Pathwise.Proofs.InputUpdates

/-! Input maps in memory. A map is stored as a segment of an array of names and a table of inputs by name. Maps that are
made from one another share their arrays, and writing to an array or a table would show in every map that it belongs to.
Yet each operation writes only where nothing was stored before, so the memory is extended, a map that was made stays as
it was whatever is done later, and a stored map has the names and the inputs that the operations on input maps give it:
all names once, in the order in which they were first written, and exactly those that are in the table. -/

namespace Pathwise

/-- The first cells of an array of names. -/
structure Segment where
  array : Nat
  length : Nat

/-- Where the names of a map are, and the table of its inputs. -/
structure StoredMap where
  names : Segment
  table : Nat

/-- Arrays of names and tables of inputs, by their addresses 0, 1, 2 and so on. -/
structure Memory where
  arrays : List (List String) := []
  tables : List (String → Option Input) := []

namespace Memory

def cells (mem : Memory) (a : Nat) : List String := mem.arrays.getD a []

def table (mem : Memory) (t : Nat) : String → Option Input := mem.tables.getD t fun _ => none

def read (mem : Memory) (s : Segment) : List String := (mem.cells s.array).take s.length

def entry (mem : Memory) (r : StoredMap) (name : String) : Option Input := mem.table r.table name

/-- Appends a name to a segment: in the next cell of the array or, if the array is full, to a copy of the segment. -/
def append (mem : Memory) (s : Segment) (name : String) : Segment × Memory :=
  if s.length < (mem.cells s.array).length then
    (⟨s.array, s.length + 1⟩, { mem with arrays := mem.arrays.set s.array ((mem.cells s.array).set s.length name) })
  else (⟨mem.arrays.length, s.length + 1⟩, { mem with arrays := mem.arrays ++ [mem.read s ++ [name]] })

/-- Puts an input into a table. -/
def write (mem : Memory) (t : Nat) (i : Input) : Memory :=
  { mem with tables := mem.tables.set t (Function.update (mem.table t) i.name (some i)) }

/-- Puts an input into a stored map, which appends its name if that is new. -/
def put (mem : Memory) (r : StoredMap) (i : Input) : StoredMap × Memory :=
  match mem.entry r i.name with
  | some _ => (r, mem.write r.table i)
  | none =>
    let out := mem.append r.names i.name
    (⟨out.1, r.table⟩, out.2.write r.table i)

/-- A map with these inputs, in an array with a cell for each of them. -/
def new (mem : Memory) (is : List Input) : StoredMap × Memory :=
  is.foldl (fun s i => s.2.put s.1 i)
    (⟨⟨mem.arrays.length, 0⟩, mem.tables.length⟩,
      ⟨mem.arrays ++ [List.replicate is.length ""], mem.tables ++ [fun _ => none]⟩)

/-- A map with one input replaced or added. The table is copied. The names are shared unless there is a new one, for
which they are copied into an array with one more cell. -/
def set (mem : Memory) (r : StoredMap) (i : Input) : StoredMap × Memory :=
  let tables := mem.tables ++ [mem.table r.table]
  match mem.entry r i.name with
  | some _ => { mem with tables }.put ⟨r.names, mem.tables.length⟩ i
  | none =>
    let names := mem.read r.names
    { mem with arrays := mem.arrays ++ [names ++ [""]], tables }.put
      ⟨⟨mem.arrays.length, names.length⟩, mem.tables.length⟩ i

/-- The update that a model makes for one name of the base. -/
def update (base : StoredMap) (model : Model) (s : StoredMap × Memory) (name : String) : StoredMap × Memory :=
  match s.2.entry base name, model.find? name with
  | some i, some w => if i.symbolic then s.2.set s.1 { i with value := w.toInt64 } else s
  | _, _ => s

def applyModel (mem : Memory) (model : Model) (base : StoredMap) : StoredMap × Memory :=
  (mem.read base.names).foldl (update base model) (base, mem)

/-- The values by name. -/
def assignments (mem : Memory) (r : StoredMap) : Assignments :=
  (mem.read r.names).map fun name => ⟨name, ((mem.entry r name).map (·.value)).getD 0⟩

/-- Every assignment as a symbolic input. -/
def inputMap (mem : Memory) (as : Assignments) : StoredMap × Memory :=
  mem.new (as.map fun a => ⟨a.name, a.value, true⟩)

/-! ### Extended memories -/

/-- What is in the first memory is in the second, at the same addresses. -/
structure Extends (mem mem' : Memory) : Prop where
  arrays : mem.arrays <+: mem'.arrays
  tables : mem.tables <+: mem'.tables

variable {mem₀ mem mem' mem'' : Memory} {r : StoredMap} {m : InputMap} {i : Input} {s : Segment} {name : String}

theorem Extends.refl (mem : Memory) : mem.Extends mem := ⟨List.prefix_rfl, List.prefix_rfl⟩

theorem Extends.trans (h : mem.Extends mem') (h' : mem'.Extends mem'') : mem.Extends mem'' :=
  ⟨h.arrays.trans h'.arrays, h.tables.trans h'.tables⟩

/-- The stored map has the names and the inputs of the map. -/
structure Stores (mem : Memory) (r : StoredMap) (m : InputMap) : Prop where
  array : r.names.array < mem.arrays.length
  table : r.table < mem.tables.length
  names : mem.read r.names = m.names
  entries : ∀ name, mem.entry r name = m.find? name

/-- A stored map stays in an extended memory. -/
theorem Stores.mono (h : mem.Stores r m) (hext : mem.Extends mem') : mem'.Stores r m := by
  obtain ⟨arrays, harrays⟩ := hext.arrays
  obtain ⟨tables, htables⟩ := hext.tables
  have hcells : mem'.cells r.names.array = mem.cells r.names.array := by
    unfold cells
    rw [← harrays, List.getD_append _ _ _ _ h.array]
  have htable : mem'.table r.table = mem.table r.table := by
    unfold Memory.table
    rw [← htables, List.getD_append _ _ _ _ h.table]
  refine ⟨h.array.trans_le hext.arrays.length_le, h.table.trans_le hext.tables.length_le, ?_, fun name => ?_⟩
  · unfold read
    rw [hcells]
    exact h.names
  · unfold entry
    rw [htable]
    exact h.entries name

/-- What is stored behind a list is written without changing the list. -/
theorem prefix_set {α : Type} {xs ys : List α} {n : Nat} (h : xs <+: ys) (hn : xs.length ≤ n) (y : α) :
    xs <+: ys.set n y := by
  obtain ⟨zs, rfl⟩ := h
  rw [List.set_append_right n y hn]
  exact List.prefix_append xs _

/-! ### Writing -/

theorem cells_concat (arrays : List (List String)) (cells : List String) (tables : List (String → Option Input)) :
    (⟨arrays ++ [cells], tables⟩ : Memory).cells arrays.length = cells := by
  rw [Memory.cells, List.getD_append_right _ _ _ _ le_rfl, Nat.sub_self]
  rfl

theorem table_concat (arrays : List (List String)) (tables : List (String → Option Input))
    (t : String → Option Input) : (⟨arrays, tables ++ [t]⟩ : Memory).table tables.length = t := by
  rw [Memory.table, List.getD_append_right _ _ _ _ le_rfl, Nat.sub_self]
  rfl

/-- Wherever the name goes, the segment has it at the end. -/
theorem read_append (h : s.array < mem.arrays.length) (name : String) :
    (mem.append s name).2.read (mem.append s name).1 = mem.read s ++ [name] := by
  unfold append
  split_ifs with hroom
  · have hcells : (mem.arrays.set s.array ((mem.cells s.array).set s.length name)).getD s.array [] =
        (mem.cells s.array).set s.length name := by
      rw [List.getD_eq_getElem?_getD, List.getElem?_set_self h, Option.getD_some]
    calc List.take (s.length + 1) ((mem.arrays.set s.array ((mem.cells s.array).set s.length name)).getD s.array [])
        = List.take (s.length + 1) ((mem.cells s.array).set s.length name) := by rw [hcells]
      _ = List.take s.length (mem.cells s.array) ++ [name] := by
        rw [List.take_add_one, List.take_set_of_le le_rfl, List.getElem?_set_self hroom, Option.toList_some]
  · have hlength : (mem.read s ++ [name]).length ≤ s.length + 1 := by
      simp [read]
    rw [read, cells_concat, List.take_of_length_le hlength]

@[simp] theorem tables_append (mem : Memory) (s : Segment) (name : String) :
    (mem.append s name).2.tables = mem.tables := by
  unfold append
  split_ifs <;> rfl

theorem array_append_lt (h : s.array < mem.arrays.length) (name : String) :
    (mem.append s name).1.array < (mem.append s name).2.arrays.length := by
  unfold append
  split_ifs <;> simp [h]

theorem le_array_append {n : Nat} (h : n ≤ s.array) (hn : n ≤ mem.arrays.length) (name : String) :
    n ≤ (mem.append s name).1.array := by
  unfold append
  split_ifs
  · exact h
  · exact hn

theorem Extends.append (h : mem₀.Extends mem) (hs : mem₀.arrays.length ≤ s.array) (name : String) :
    mem₀.Extends (mem.append s name).2 := by
  unfold Memory.append
  split_ifs
  · exact ⟨prefix_set h.arrays hs _, h.tables⟩
  · exact ⟨h.arrays.trans (List.prefix_append _ _), h.tables⟩

theorem Extends.write (h : mem₀.Extends mem) {t : Nat} (ht : mem₀.tables.length ≤ t) (i : Input) :
    mem₀.Extends (mem.write t i) :=
  ⟨h.arrays, prefix_set h.tables ht _⟩

theorem entry_write (h : r.table < mem.tables.length) (i : Input) (name : String) :
    (mem.write r.table i).entry r name = if i.name = name then some i else mem.entry r name := by
  have htable : (mem.write r.table i).table r.table = Function.update (mem.table r.table) i.name (some i) := by
    rw [write, Memory.table, List.getD_eq_getElem?_getD, List.getElem?_set_self h, Option.getD_some]
  rw [entry, htable, Function.update_apply]
  simp only [eq_comm, entry]

/-! ### Operations -/

/-- The memory is extended by an operation that stores a map. -/
structure Adds (mem : Memory) (m : InputMap) (out : StoredMap × Memory) : Prop where
  grows : mem.Extends out.2
  stores : out.2.Stores out.1 m

/-- Once its name is there, an input is written to the table. -/
theorem stores_write (harray : r.names.array < mem.arrays.length) (htable : r.table < mem.tables.length)
    (hnames : mem.read r.names = (m.set i).names) (hentries : ∀ name, mem.entry r name = m.find? name) :
    (mem.write r.table i).Stores r (m.set i) where
  array := harray
  table := by
    rw [write, List.length_set]
    exact htable
  names := hnames
  entries name := by rw [entry_write htable, InputMap.find?_set, hentries]

/-- An input is put into a map without a change to what was there before: to the map's table, which is new since then,
and for a new name to the map's array, if that is new too. -/
theorem put_adds (hext : mem₀.Extends mem) (hr : mem.Stores r m) (htable : mem₀.tables.length ≤ r.table)
    (harray : i.name ∉ m.names → mem₀.arrays.length ≤ r.names.array) : mem₀.Adds (m.set i) (mem.put r i) := by
  have hentry := hr.entries i.name
  unfold put
  cases hfind : m.find? i.name with
  | some j =>
      have hmem : i.name ∈ m.names := (m.mem_names_iff i.name).mpr ⟨j, hfind⟩
      rw [hentry, hfind]
      refine ⟨hext.write htable i, stores_write hr.array hr.table ?_ hr.entries⟩
      rw [InputMap.names_set, if_pos hmem, hr.names]
  | none =>
      have hmem : i.name ∉ m.names := InputMap.find?_eq_none_iff.mp hfind
      have htables := tables_append mem r.names i.name
      rw [hentry, hfind]
      refine ⟨(hext.append (harray hmem) i.name).write htable i,
        stores_write (r := ⟨(mem.append r.names i.name).1, r.table⟩) ?_ ?_ ?_ fun name => ?_⟩
      · exact array_append_lt hr.array i.name
      · rw [htables]
        exact hr.table
      · rw [InputMap.names_set, if_neg hmem, ← hr.names]
        exact read_append hr.array i.name
      · rw [← hr.entries, entry, entry, Memory.table, Memory.table, htables]

@[simp] theorem table_put (mem : Memory) (r : StoredMap) (i : Input) : (mem.put r i).1.table = r.table := by
  unfold put
  split <;> rfl

theorem le_array_put {n : Nat} (h : n ≤ r.names.array) (hn : n ≤ mem.arrays.length) (i : Input) :
    n ≤ (mem.put r i).1.names.array := by
  unfold put
  split
  · exact h
  · exact le_array_append h hn i.name

/-- Inputs are put one after the other into a map whose table and array are new. -/
theorem foldl_put_adds (is : List Input) : ∀ {out : StoredMap × Memory} {m : InputMap}, mem.Adds m out →
    mem.tables.length ≤ out.1.table → mem.arrays.length ≤ out.1.names.array →
    mem.Adds (is.foldl InputMap.set m) (is.foldl (fun s i => s.2.put s.1 i) out) := by
  induction is with
  | nil => exact fun h _ _ => h
  | cons i is ih =>
      intro out m h htable harray
      refine ih (put_adds h.grows h.stores htable fun _ => harray) ?_ ?_
      · rw [table_put]
        exact htable
      · exact le_array_put harray h.grows.arrays.length_le i

theorem new_adds (mem : Memory) (is : List Input) : mem.Adds (.ofList is) (mem.new is) := by
  refine foldl_put_adds is ⟨⟨List.prefix_append _ _, List.prefix_append _ _⟩, ?_⟩ le_rfl le_rfl
  refine ⟨?_, ?_, List.take_zero, fun name => ?_⟩
  · simp
  · simp
  · rw [entry, table_concat]
    rfl

theorem inputMap_adds (mem : Memory) (as : Assignments) : mem.Adds as.inputMap (mem.inputMap as) :=
  mem.new_adds _

theorem set_adds (hr : mem.Stores r m) (i : Input) : mem.Adds (m.set i) (mem.set r i) := by
  have hentry := hr.entries i.name
  unfold set
  cases hfind : m.find? i.name with
  | some j =>
      have hmem : i.name ∈ m.names := (m.mem_names_iff i.name).mpr ⟨j, hfind⟩
      -- The array is shared, and nothing is written to it.
      rw [hentry, hfind]
      refine put_adds ⟨List.prefix_rfl, List.prefix_append _ _⟩ ?_ le_rfl (absurd hmem)
      refine ⟨hr.array, by simp, hr.names, fun name => ?_⟩
      rw [entry, table_concat]
      exact hr.entries name
  | none =>
      -- The names are written to a copy, even if the array had room for one more.
      rw [hentry, hfind]
      refine put_adds ⟨List.prefix_append _ _, List.prefix_append _ _⟩ ?_ le_rfl fun _ => le_rfl
      refine ⟨by simp, by simp, ?_, fun name => ?_⟩
      · rw [read, cells_concat, List.take_left, hr.names]
      · rw [entry, table_concat]
        exact hr.entries name

theorem update_adds {base : StoredMap} {m₀ : InputMap} (hbase : mem.Stores base m₀) {out : StoredMap × Memory}
    (h : mem.Adds m out) (model : Model) (name : String) :
    mem.Adds (m₀.update model m name) (update base model out name) := by
  have hentry := (hbase.mono h.grows).entries name
  unfold update InputMap.update
  rw [hentry]
  cases m₀.find? name with
  | none => exact h
  | some i =>
      cases model.find? name with
      | none => exact h
      | some w =>
          dsimp only
          split_ifs with hsymbolic
          · have hset := set_adds h.stores { i with value := w.toInt64 }
            exact ⟨h.grows.trans hset.grows, hset.stores⟩
          · exact h

theorem applyModel_adds (hr : mem.Stores r m) (hm : m.names.Nodup) (model : Model) :
    mem.Adds (m.applyModel model) (mem.applyModel model r) := by
  have hloop : ∀ (names : List String) {m' : InputMap} {out : StoredMap × Memory}, mem.Adds m' out →
      mem.Adds (names.foldl (m.update model) m') (names.foldl (update r model) out) := by
    intro names
    induction names with
    | nil => exact fun h => h
    | cons name names ih => exact fun h => ih (update_adds hr h model name)
  rw [applyModel, hr.names, ← InputMap.foldl_update hm]
  exact hloop m.names ⟨.refl mem, hr⟩

theorem Stores.assignments (hr : mem.Stores r m) (hm : m.names.Nodup) : mem.assignments r = m.assignments := by
  unfold Memory.assignments InputMap.assignments
  rw [hr.names, InputMap.names, List.map_map]
  refine List.map_congr_left fun i hi => ?_
  rw [Function.comp_apply, hr.entries, InputMap.find?_of_mem hm hi]
  rfl

end Memory

/-! ### Histories -/

/-- A map that was made: where it is stored, the map that it is to be, and the names that were written to it, one after
the other. -/
structure Made where
  stored : StoredMap
  map : InputMap
  written : List String

/-- A memory, and the maps that were made in it. -/
structure Ledger where
  memory : Memory := {}
  made : List Made := []

namespace Ledger

/-- Enters what an operation has stored. -/
def enter (s : Ledger) (out : StoredMap × Memory) (map : InputMap) (written : List String) : Ledger :=
  ⟨out.2, s.made ++ [⟨out.1, map, written⟩]⟩

/-- One more map is made, from inputs or assignments or from a map that was made before. -/
inductive Step (s : Ledger) : Ledger → Prop where
  | new (is : List Input) : Step s (s.enter (s.memory.new is) (.ofList is) (is.map (·.name)))
  | set {e : Made} (he : e ∈ s.made) (i : Input) :
      Step s (s.enter (s.memory.set e.stored i) (e.map.set i) (e.written ++ [i.name]))
  | applyModel {e : Made} (he : e ∈ s.made) (model : Model) :
      Step s (s.enter (s.memory.applyModel model e.stored) (e.map.applyModel model) e.written)
  | inputMap (as : Assignments) : Step s (s.enter (s.memory.inputMap as) as.inputMap (as.map (·.name)))

/-- The map is stored, and has the names that were written, in the order of their first appearance. -/
structure Keeps (mem : Memory) (e : Made) : Prop where
  stored : mem.Stores e.stored e.map
  distinct : e.map.names.Nodup
  order : e.map.names = e.written.eraseDups

theorem Keeps.mono {mem mem' : Memory} {e : Made} (h : Keeps mem e) (hext : mem.Extends mem') : Keeps mem' e :=
  ⟨h.stored.mono hext, h.distinct, h.order⟩

/-- Everything that was made is kept. -/
def Sound (s : Ledger) : Prop := ∀ e ∈ s.made, Keeps s.memory e

variable {s s' : Ledger}

/-- What a step adds to a sound ledger. -/
theorem Step.adds (h : Step s s') (hs : s.Sound) : ∃ out map written, s' = s.enter out map written ∧
    s.memory.Adds map out ∧ map.names.Nodup ∧ map.names = written.eraseDups := by
  cases h with
  | new is => exact ⟨_, _, _, rfl, s.memory.new_adds is, InputMap.nodup_ofList is, InputMap.names_ofList is⟩
  | @set e he i =>
      obtain ⟨hstored, hdistinct, horder⟩ := hs e he
      refine ⟨_, _, _, rfl, Memory.set_adds hstored i, InputMap.nodup_set hdistinct i, ?_⟩
      rw [InputMap.names_set, InputMap.eraseDups_concat, horder]
      simp only [List.mem_eraseDups]
  | @applyModel e he model =>
      obtain ⟨hstored, hdistinct, horder⟩ := hs e he
      have hnames := e.map.names_applyModel model
      exact ⟨_, _, _, rfl, Memory.applyModel_adds hstored hdistinct model, hnames ▸ hdistinct, hnames.trans horder⟩
  | inputMap as =>
      exact ⟨_, _, _, rfl, s.memory.inputMap_adds as, (InputMap.plain_inputMap as).distinct, InputMap.names_inputMap as⟩

theorem Step.keeps (h : Step s s') (hs : s.Sound) : s.memory.Extends s'.memory ∧ s.made <+: s'.made ∧ s'.Sound := by
  obtain ⟨out, map, written, rfl, hadds, hdistinct, horder⟩ := h.adds hs
  refine ⟨hadds.grows, List.prefix_append _ _, ?_⟩
  refine List.forall_mem_append.mpr ⟨fun e he => (hs e he).mono hadds.grows, List.forall_mem_singleton.mpr ?_⟩
  exact ⟨hadds.stores, hdistinct, horder⟩

theorem keeps_of_steps (h : Relation.ReflTransGen Step s s') (hs : s.Sound) :
    s.memory.Extends s'.memory ∧ s.made <+: s'.made ∧ s'.Sound := by
  induction h with
  | refl => exact ⟨.refl _, List.prefix_rfl, hs⟩
  | tail _ hstep ih =>
      obtain ⟨hext, hmade, hsound⟩ := ih
      obtain ⟨hext', hmade', hsound'⟩ := hstep.keeps hsound
      exact ⟨hext.trans hext', hmade.trans hmade', hsound'⟩

theorem sound_of_steps (h : Relation.ReflTransGen Step {} s) : s.Sound :=
  (keeps_of_steps h (List.forall_mem_nil _)).2.2

end Ledger

/-- Whatever maps are made one after the other, from inputs with repeated names, by updates, by models and from
assignments: each is stored with its names and inputs and stays so, whatever is made later, from it or from others. Its
names are different, in the order of their first appearance, and are those that it has inputs for. Setting an input
changes what one name stands for, applying a model sets the symbolic inputs that the model binds, and what is read from
the list of its values has the same names and values and lists the same. -/
theorem input_updates_are_pointwise {s : Ledger} (hs : Relation.ReflTransGen Ledger.Step {} s) {e : Made}
    (he : e ∈ s.made) :
    (s.memory.Stores e.stored e.map ∧ s.memory.assignments e.stored = e.map.assignments) ∧
      (∀ s', Relation.ReflTransGen Ledger.Step s s' → e ∈ s'.made ∧ s'.memory.Stores e.stored e.map) ∧
      (e.map.names.Nodup ∧ e.map.names = e.written.eraseDups ∧
        ∀ name, name ∈ e.map.names ↔ ∃ i, e.map.find? name = some i) ∧
      (∀ i, e.map.Puts i (e.map.set i)) ∧
      (∀ model, e.map.Takes model (e.map.applyModel model)) ∧
      e.map.Rereads e.map.assignments.inputMap := by
  have hsound := Ledger.sound_of_steps hs
  obtain ⟨hstored, hdistinct, horder⟩ := hsound e he
  refine ⟨⟨hstored, hstored.assignments hdistinct⟩, fun s' hsteps => ?_,
    ⟨hdistinct, horder, e.map.mem_names_iff⟩, e.map.puts_set, e.map.takes_applyModel, InputMap.rereads_inputMap hdistinct⟩
  obtain ⟨hext, hmade, -⟩ := Ledger.keeps_of_steps hsteps hsound
  exact ⟨hmade.subset he, hstored.mono hext⟩

/-- Two maps are made from one whose array has a cell to spare, each with another name in the third place, and then a
model is applied to it that also binds an input that is not symbolic. The map itself stays. -/
theorem input_updates_are_pointwise_of_siblings :
    let is : List Input := [⟨"x", 1, true⟩, ⟨"y", 2, false⟩, ⟨"x", 5, true⟩]
    let z : Input := ⟨"z", 9, true⟩
    let w : Input := ⟨"w", 4, true⟩
    let model : Model := ⟨[("x", .ofInt64 (-7)), ("y", .ofInt64 100), ("q", .ofInt64 3)]⟩
    let base : Made := ⟨(Memory.new {} is).1, .ofList is, is.map (·.name)⟩
    let s₁ : Ledger := Ledger.enter {} (Memory.new {} is) (.ofList is) (is.map (·.name))
    let s₂ := s₁.enter (s₁.memory.set base.stored z) (base.map.set z) (base.written ++ ["z"])
    let s₃ := s₂.enter (s₂.memory.set base.stored w) (base.map.set w) (base.written ++ ["w"])
    let s := s₃.enter (s₃.memory.applyModel model base.stored) (base.map.applyModel model) base.written
    Relation.ReflTransGen Ledger.Step {} s₁ ∧ Relation.ReflTransGen Ledger.Step s₁ s ∧ base ∈ s₁.made ∧
      base.map.names = ["x", "y"] ∧ s.memory.read base.stored.names = ["x", "y"] ∧
      s.memory.entry base.stored "x" = some ⟨"x", 5, true⟩ ∧ (base.map.set z).names = ["x", "y", "z"] ∧
      (base.map.set w).names = ["x", "y", "w"] ∧
      (base.map.applyModel model).find? "x" = some ⟨"x", -7, true⟩ ∧
      (base.map.applyModel model).find? "y" = some ⟨"y", 2, false⟩ := by
  intro is z w model base s₁ s₂ s₃ s
  have hs₁ : Relation.ReflTransGen Ledger.Step {} s₁ := .single (.new is)
  have h₁ : base ∈ s₁.made := List.mem_singleton_self _
  have h₂ : base ∈ s₂.made := List.mem_append_left _ h₁
  have h₃ : base ∈ s₃.made := List.mem_append_left _ h₂
  have hs : Relation.ReflTransGen Ledger.Step s₁ s :=
    ((Relation.ReflTransGen.single (.set h₁ z)).tail (.set h₂ w)).tail (.applyModel h₃ model)
  obtain ⟨-, hlater, ⟨-, horder, -⟩, hputs, htakes, -⟩ := input_updates_are_pointwise hs₁ h₁
  obtain ⟨-, hstored⟩ := hlater s hs
  have hnames : base.map.names = ["x", "y"] := horder.trans (by decide)
  have hx : base.map.find? "x" = some ⟨"x", 5, true⟩ := by decide
  have hy : base.map.find? "y" = some ⟨"y", 2, false⟩ := by decide
  refine ⟨hs₁, hs, h₁, hnames, hstored.names.trans hnames, (hstored.entries "x").trans hx, ?_, ?_, ?_, ?_⟩
  · rw [(hputs z).names, hnames]
    decide
  · rw [(hputs w).names, hnames]
    decide
  · exact (htakes model).bound "x" _ (.ofInt64 (-7)) hx rfl (by decide)
  · exact (htakes model).kept "y" _ hy (Or.inl rfl)

end Pathwise
