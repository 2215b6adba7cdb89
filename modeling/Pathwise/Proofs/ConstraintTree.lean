import Mathlib.Data.List.Nodup
import Mathlib.Order.Nat
import Pathwise.Exploration

/-! The constraint tree. Merging traces leaves one node for each path of decisions that begins one of them,
with the inputs of the trace that came there first. A node whose opposite is there too is processed, and a
processed node has its opposite there unless it was marked for a reason of its own. `ConstraintTree.Merges` is
this invariant; adding a path keeps it (`Merges.observe`), hence adding a trace does (`Merges.insert`), and so
does marking a node (`Merges.mark`). -/

namespace Pathwise

/-! ### Paths of decisions -/

namespace PredicateKey

/-- The key of the opposite decision. -/
def flip (k : PredicateKey) : PredicateKey := { k with taken := !k.taken }

theorem flip_ne (k : PredicateKey) : k.flip ≠ k := by
  intro h
  exact absurd (congrArg PredicateKey.taken h) (by simp [flip])

theorem flip_flip (k : PredicateKey) : k.flip.flip = k := by
  unfold flip
  rw [Bool.not_not]

/-- The path with its last decision turned. -/
def opposite (ks : List PredicateKey) : List PredicateKey := ks.dropLast ++ (ks.getLast?.map flip).toList

theorem opposite_concat (ks : List PredicateKey) (k : PredicateKey) : opposite (ks ++ [k]) = ks ++ [k.flip] := by
  simp [opposite]

theorem opposite_opposite (ks : List PredicateKey) : opposite (opposite ks) = ks := by
  rcases List.eq_nil_or_concat ks with rfl | ⟨ks, k, rfl⟩
  · rfl
  · rw [List.concat_eq_append, opposite_concat, opposite_concat, flip_flip]

theorem eq_opposite {ks ks' : List PredicateKey} (h : opposite ks = ks') : ks = opposite ks' := by
  rw [← h, opposite_opposite]

theorem opposite_ne {ks : List PredicateKey} (h : ks ≠ []) : opposite ks ≠ ks := by
  rcases List.eq_nil_or_concat ks with rfl | ⟨ks, k, rfl⟩
  · exact absurd rfl h
  · rw [List.concat_eq_append, opposite_concat]
    intro heq
    exact flip_ne k (List.singleton_inj.mp (List.append_cancel_left heq))

end PredicateKey

open PredicateKey

theorem Trace.keys_append (q s : Trace) : Trace.keys (q ++ s) = q.keys ++ s.keys := List.map_append

theorem Trace.keys_eq_nil {q : Trace} : q.keys = [] ↔ q = [] := List.map_eq_nil_iff

/-- The path begins the trace of the run on the inputs. -/
def SeenIn (runs : List (InputMap × Trace)) (q : Trace) (m : InputMap) : Prop :=
  ∃ u ∈ runs, m = u.1 ∧ q ≠ [] ∧ q <+: u.2

/-! ### Nodes -/

namespace TreeNode

theorem opposite_keys {n : TreeNode} {q : Trace} {d : Predicate} (h : n.path = q ++ [d]) :
    opposite n.keys = Trace.keys (q ++ [d.flip]) := by
  rw [keys, h, Trace.keys_append, Trace.keys_append]
  exact opposite_concat _ _

/-- The node, processed if it is the one at the end of the path. -/
def doneAt (ks : List PredicateKey) (n : TreeNode) : TreeNode :=
  if n.keys = ks then { n with processed := true } else n

variable (ks : List PredicateKey) (n : TreeNode)

@[simp] theorem path_doneAt : (n.doneAt ks).path = n.path := by
  unfold doneAt
  split_ifs <;> rfl

@[simp] theorem inputs_doneAt : (n.doneAt ks).inputs = n.inputs := by
  unfold doneAt
  split_ifs <;> rfl

@[simp] theorem keys_doneAt : (n.doneAt ks).keys = n.keys := by
  unfold keys
  rw [path_doneAt]

@[simp] theorem processed_doneAt : (n.doneAt ks).processed = true ↔ n.keys = ks ∨ n.processed = true := by
  unfold doneAt
  split_ifs with h <;> simp [h]

end TreeNode

namespace ConstraintTree

variable {t : ConstraintTree} {ks : List PredicateKey} {i j : Nat} {n : TreeNode} {inputs : InputMap}
  {path : Trace}

/-- There is a node at the end of the path. -/
def Has (t : ConstraintTree) (ks : List PredicateKey) : Prop := ∃ n ∈ t.nodes, n.keys = ks

/-- No two nodes are at the end of one path. -/
def Distinct (t : ConstraintTree) : Prop := (t.nodes.toList.map TreeNode.keys).Nodup

theorem Distinct.eq_of_keys (hd : t.Distinct) {n' : TreeNode} (hi : t.nodes[i]? = some n)
    (hj : t.nodes[j]? = some n') (h : n.keys = n'.keys) : i = j := by
  have hget : ∀ {i : Nat} {n : TreeNode}, t.nodes[i]? = some n →
      (t.nodes.toList.map TreeNode.keys)[i]? = some n.keys := by
    intro i n hn
    rw [List.getElem?_map, Array.getElem?_toList, hn]
    rfl
  have hlt := (List.getElem?_eq_some_iff.mp (hget hi)).1
  exact (List.getElem?_inj hlt hd).mp (by rw [hget hi, hget hj, h])

theorem find?_eq_some (h : t.find? ks = some i) : ∃ n, t.nodes[i]? = some n ∧ n.keys = ks := by
  obtain ⟨hi, hkeys, -⟩ := Array.findIdx?_eq_some_iff_getElem.mp h
  exact ⟨t.nodes[i], Array.getElem?_eq_getElem hi, beq_iff_eq.mp hkeys⟩

theorem find?_eq_none : t.find? ks = none ↔ ¬t.Has ks := by
  rw [find?, Array.findIdx?_eq_none_iff, Has]
  simp

/-! ### Marking -/

theorem size_mark (t : ConstraintTree) (i : Nat) : (t.mark i).size = t.size := by
  unfold mark size
  split
  · split_ifs <;> simp
  · rfl

theorem mark_of_none (h : t.nodes[i]? = none) : t.mark i = t := by
  unfold mark
  rw [h]

theorem getElem?_mark (h : t.nodes[i]? = some n) (j : Nat) :
    (t.mark i).nodes[j]? = if i = j then some { n with processed := true } else t.nodes[j]? := by
  have hi : i < t.nodes.size := (Array.getElem?_eq_some_iff.mp h).1
  unfold mark
  rw [h]
  dsimp only
  by_cases hn : n.processed = true
  · rw [if_pos hn]
    split_ifs with hij
    · rw [← hij, h, ← hn]
    · rfl
  · rw [if_neg hn]
    dsimp only
    rw [Array.getElem?_setIfInBounds, if_pos hi]

theorem solved_mark (h : t.nodes[i]? = some n) :
    (t.mark i).solved = if n.processed then t.solved else t.solved + 1 := by
  unfold mark
  rw [h]
  exact apply_ite ConstraintTree.solved _ _ _

theorem isPending_of_mark (h : Exploration.isPending (t.mark i) j = true) : Exploration.isPending t j = true := by
  cases hi : t.nodes[i]? with
  | none => rwa [mark_of_none hi] at h
  | some n =>
      unfold Exploration.isPending at h ⊢
      rw [getElem?_mark hi] at h
      split_ifs at h
      · cases h
      · exact h

theorem nodes_mark (hd : t.Distinct) (h : t.nodes[i]? = some n) :
    (t.mark i).nodes = t.nodes.map (TreeNode.doneAt n.keys) := by
  apply Array.ext_getElem?
  intro j
  rw [getElem?_mark h, Array.getElem?_map]
  split_ifs with hij
  · rw [← hij, h, Option.map_some, TreeNode.doneAt, if_pos rfl]
  · cases hj : t.nodes[j]? with
    | none => rfl
    | some n' =>
        have hne : n'.keys ≠ n.keys := fun heq => hij (hd.eq_of_keys h hj heq.symm)
        rw [Option.map_some, TreeNode.doneAt, if_neg hne]

theorem distinct_of_map (f : TreeNode → TreeNode) (hf : ∀ n, (f n).keys = n.keys) {t' : ConstraintTree}
    (h : t'.nodes = t.nodes.map f) : t'.Distinct ↔ t.Distinct := by
  unfold Distinct
  rw [h, Array.toList_map, List.map_map]
  have : TreeNode.keys ∘ f = TreeNode.keys := funext hf
  rw [this]

/-! ### Adding a path -/

theorem sibling?_eq (hn : n.path ≠ []) : t.sibling? n = t.find? (opposite n.keys) := by
  unfold sibling? TreeNode.predicate? TreeNode.asserts TreeNode.keys
  rcases List.eq_nil_or_concat n.path with h | ⟨q, d, h⟩
  · exact absurd h hn
  · rw [h, List.concat_eq_append, List.getLast?_concat, List.dropLast_concat, Trace.keys_append]
    change t.find? _ = t.find? (opposite (Trace.keys q ++ [d.key]))
    rw [opposite_concat]
    rfl

theorem observe_of_has (h : t.Has path.keys) : t.observe path inputs = t := by
  unfold observe
  cases hfind : t.find? path.keys with
  | none => exact absurd h (find?_eq_none.mp hfind)
  | some i => rfl

/-- The tree with a node for a new path. -/
def grow (t : ConstraintTree) (path : Trace) (inputs : InputMap) : ConstraintTree :=
  { t with nodes := t.nodes.push { path, inputs } }

theorem observe_of_alone (h : t.find? path.keys = none)
    (halone : (t.grow path inputs).sibling? { path, inputs } = none) :
    t.observe path inputs = t.grow path inputs := by
  unfold grow at halone ⊢
  rw [observe, h]
  dsimp only
  rw [halone]

theorem observe_of_sibling (h : t.find? path.keys = none)
    (hsibling : (t.grow path inputs).sibling? { path, inputs } = some j) :
    t.observe path inputs = ((t.grow path inputs).mark t.size).mark j := by
  unfold grow at hsibling ⊢
  rw [observe, h]
  dsimp only
  rw [hsibling]

theorem has_grow : (t.grow path inputs).Has ks ↔ t.Has ks ∨ ks = path.keys := by
  unfold grow Has
  simp only [Array.mem_push]
  constructor
  · rintro ⟨n, hn | rfl, rfl⟩
    · exact Or.inl ⟨n, hn, rfl⟩
    · exact Or.inr rfl
  · rintro (⟨n, hn, rfl⟩ | rfl)
    · exact ⟨n, Or.inl hn, rfl⟩
    · exact ⟨_, Or.inr rfl, rfl⟩

theorem distinct_grow (hd : t.Distinct) (h : ¬t.Has path.keys) (inputs : InputMap) :
    (t.grow path inputs).Distinct := by
  unfold Distinct grow
  rw [Array.toList_push, List.map_append, List.map_singleton]
  refine List.nodup_append.mpr ⟨hd, List.nodup_singleton _, ?_⟩
  rintro ks hks _ hmem rfl
  obtain ⟨n, hn, hkeys⟩ := List.mem_map.mp hks
  exact h ⟨n, Array.mem_toList_iff.mp hn, hkeys.trans (List.mem_singleton.mp hmem)⟩

/-- A new path becomes a node. If its opposite is there, both are processed. -/
theorem nodes_observe (hd : t.Distinct) (hpath : path ≠ []) (h : ¬t.Has path.keys) (inputs : InputMap) :
    ¬t.Has (opposite path.keys) ∧ t.observe path inputs = t.grow path inputs ∨
      t.Has (opposite path.keys) ∧ (t.observe path inputs).nodes =
        (t.grow path inputs).nodes.map fun n => (n.doneAt path.keys).doneAt (opposite path.keys) := by
  have hfind : t.find? path.keys = none := find?_eq_none.mpr h
  have hsibling : (t.grow path inputs).sibling? { path, inputs } =
      (t.grow path inputs).find? (opposite path.keys) := sibling?_eq hpath
  have hne : opposite path.keys ≠ path.keys := opposite_ne (Trace.keys_eq_nil.not.mpr hpath)
  cases hopp : (t.grow path inputs).find? (opposite path.keys) with
  | none =>
      have hnot := mt has_grow.mpr (find?_eq_none.mp hopp)
      exact Or.inl ⟨fun h => hnot (Or.inl h), observe_of_alone hfind (hsibling.trans hopp)⟩
  | some j =>
      obtain ⟨n, hn, hkeys⟩ := find?_eq_some hopp
      have hhas : (t.grow path inputs).Has (opposite path.keys) := ⟨n, Array.mem_of_getElem? hn, hkeys⟩
      refine Or.inr ⟨(has_grow.mp hhas).resolve_right hne, ?_⟩
      have hdg := distinct_grow hd h inputs
      have hlast : (t.grow path inputs).nodes[t.size]? = some { path, inputs } := Array.getElem?_push_size
      have hmark := nodes_mark hdg hlast
      have hdm := (distinct_of_map _ (TreeNode.keys_doneAt _) hmark).mpr hdg
      have hj : ((t.grow path inputs).mark t.size).nodes[j]? = some (n.doneAt path.keys) := by
        rw [hmark, Array.getElem?_map, hn]
        rfl
      rw [observe_of_sibling hfind (hsibling.trans hopp), nodes_mark hdm hj, hmark, Array.map_map,
        TreeNode.keys_doneAt, hkeys]
      rfl

/-! ### Merging traces -/

/-- The tree holds the paths that were seen, each once and with inputs that it was seen with. A node whose
opposite is there is processed, and a processed node is done with or has its opposite there. -/
structure Merges (t : ConstraintTree) (seen : Trace → InputMap → Prop) (done : Trace → Prop) : Prop where
  distinct : t.Distinct
  origin : ∀ n ∈ t.nodes, n.path ≠ [] ∧ seen n.path n.inputs
  holds : ∀ q m, seen q m → t.Has q.keys
  paired : ∀ n ∈ t.nodes, t.Has (opposite n.keys) → n.processed = true
  reason : ∀ n ∈ t.nodes, n.processed = true → done n.path ∨ t.Has (opposite n.keys)

variable {seen : Trace → InputMap → Prop} {done : Trace → Prop}

theorem merges_empty (done : Trace → Prop) : ({} : ConstraintTree).Merges (fun _ _ => False) done where
  distinct := List.nodup_nil
  origin n hn := absurd hn (Array.not_mem_empty n)
  holds _ _ := False.elim
  paired n hn := absurd hn (Array.not_mem_empty n)
  reason n hn := absurd hn (Array.not_mem_empty n)

theorem Merges.congr (h : t.Merges seen done) {seen' : Trace → InputMap → Prop}
    (hseen : ∀ q m, seen q m ↔ seen' q m) : t.Merges seen' done where
  distinct := h.distinct
  origin n hn := ⟨(h.origin n hn).1, (hseen _ _).mp (h.origin n hn).2⟩
  holds q m hq := h.holds q m ((hseen q m).mpr hq)
  paired := h.paired
  reason := h.reason

theorem Merges.resolve (h : t.Merges seen done) {done' : Trace → Prop}
    (hdone : ∀ n ∈ t.nodes, done n.path → done' n.path ∨ t.Has (opposite n.keys)) : t.Merges seen done' where
  distinct := h.distinct
  origin := h.origin
  holds := h.holds
  paired := h.paired
  reason n hn hproc := (h.reason n hn hproc).elim (hdone n hn) Or.inr

theorem has_map {f : TreeNode → TreeNode} (hf : ∀ n, (f n).keys = n.keys) {t' : ConstraintTree}
    (h : t'.nodes = t.nodes.map f) : t'.Has ks ↔ t.Has ks := by
  unfold Has
  rw [h]
  constructor
  · rintro ⟨_, hn, hkeys⟩
    obtain ⟨n, hmem, rfl⟩ := Array.mem_map.mp hn
    exact ⟨n, hmem, (hf n).symm.trans hkeys⟩
  · rintro ⟨n, hn, hkeys⟩
    exact ⟨f n, Array.mem_map_of_mem hn, (hf n).trans hkeys⟩

theorem has_mark (hd : t.Distinct) (hi : t.nodes[i]? = some n) : (t.mark i).Has ks ↔ t.Has ks :=
  has_map (TreeNode.keys_doneAt _) (nodes_mark hd hi)

/-- Marking a node that is done with. -/
theorem Merges.mark (h : t.Merges seen done) (hi : t.nodes[i]? = some n) {done' : Trace → Prop}
    (hdone : done' n.path) (himp : ∀ q, done q → done' q) : (t.mark i).Merges seen done' := by
  have hnodes := nodes_mark h.distinct hi
  have hhas : ∀ ks, (t.mark i).Has ks ↔ t.Has ks := fun ks => has_mark h.distinct hi
  have hmem : ∀ n' ∈ (t.mark i).nodes, ∃ n₀ ∈ t.nodes, n₀.doneAt n.keys = n' := by
    intro n' hn'
    rw [hnodes] at hn'
    exact Array.mem_map.mp hn'
  constructor
  case distinct => exact (distinct_of_map _ (TreeNode.keys_doneAt _) hnodes).mpr h.distinct
  case origin =>
      intro n' hn'
      obtain ⟨n₀, hn₀, rfl⟩ := hmem n' hn'
      rw [TreeNode.path_doneAt, TreeNode.inputs_doneAt]
      exact h.origin n₀ hn₀
  case holds => exact fun q m hq => (hhas _).mpr (h.holds q m hq)
  case paired =>
      intro n' hn' hopp
      obtain ⟨n₀, hn₀, rfl⟩ := hmem n' hn'
      rw [TreeNode.keys_doneAt, hhas] at hopp
      exact (TreeNode.processed_doneAt _ _).mpr (Or.inr (h.paired n₀ hn₀ hopp))
  case reason =>
      intro n' hn' hproc
      obtain ⟨n₀, hn₀, rfl⟩ := hmem n' hn'
      rw [TreeNode.keys_doneAt, TreeNode.path_doneAt, hhas]
      rcases (TreeNode.processed_doneAt _ _).mp hproc with hkeys | hproc
      · obtain ⟨j, hj⟩ := Array.mem_iff_getElem?.mp hn₀
        rw [← h.distinct.eq_of_keys hj hi hkeys, hj] at hi
        cases hi
        exact Or.inl hdone
      · exact (h.reason n₀ hn₀ hproc).imp_left (himp _)

theorem mem_grow (hn : n ∈ (t.grow path inputs).nodes) : n ∈ t.nodes ∨ n = { path, inputs } :=
  Array.mem_push.mp hn

theorem Merges.origin_grow (h : t.Merges seen done) (hpath : path ≠ []) (hn : n ∈ (t.grow path inputs).nodes) :
    n.path ≠ [] ∧ (seen n.path n.inputs ∨ n.path = path ∧ n.inputs = inputs) := by
  rcases mem_grow hn with hn | rfl
  · exact ⟨(h.origin n hn).1, Or.inl (h.origin n hn).2⟩
  · exact ⟨hpath, Or.inr ⟨rfl, rfl⟩⟩

theorem Merges.holds_grow (h : t.Merges seen done) (q : Trace) (m : InputMap)
    (hq : seen q m ∨ q = path ∧ m = inputs) : (t.grow path inputs).Has q.keys := by
  rcases hq with hq | ⟨rfl, -⟩
  · exact has_grow.mpr (Or.inl (h.holds q m hq))
  · exact has_grow.mpr (Or.inr rfl)

/-- Adding a path whose opposite is not there. -/
theorem Merges.grow (h : t.Merges seen done) (hpath : path ≠ []) (hnew : ¬t.Has path.keys)
    (hopp : ¬t.Has (opposite path.keys)) (inputs : InputMap) :
    (t.grow path inputs).Merges (fun q m => seen q m ∨ q = path ∧ m = inputs) done where
  distinct := distinct_grow h.distinct hnew inputs
  origin _ hn := h.origin_grow hpath hn
  holds := h.holds_grow
  paired n hn hhas := by
    rcases mem_grow hn with hn | rfl <;> rcases has_grow.mp hhas with hhas | heq
    · exact h.paired n hn hhas
    · exact absurd ⟨n, hn, eq_opposite heq⟩ hopp
    · exact absurd hhas hopp
    · exact absurd heq (opposite_ne (Trace.keys_eq_nil.not.mpr hpath))
  reason n hn hproc := by
    rcases mem_grow hn with hn | rfl
    · exact (h.reason n hn hproc).imp_right fun hhas => has_grow.mpr (Or.inl hhas)
    · cases hproc

/-- Adding a path whose opposite is there, both processed. -/
theorem Merges.grow_paired (h : t.Merges seen done) (hpath : path ≠ []) (hnew : ¬t.Has path.keys)
    (hopp : t.Has (opposite path.keys)) {t' : ConstraintTree} (hnodes : t'.nodes =
      (t.grow path inputs).nodes.map fun n => (n.doneAt path.keys).doneAt (opposite path.keys)) :
    t'.Merges (fun q m => seen q m ∨ q = path ∧ m = inputs) done := by
  set f : TreeNode → TreeNode := fun n => (n.doneAt path.keys).doneAt (opposite path.keys) with hf
  have hkeys : ∀ n, (f n).keys = n.keys := fun n => by simp [hf]
  have hhas : ∀ ks, t'.Has ks ↔ (t.grow path inputs).Has ks := fun ks => has_map hkeys hnodes
  have hmap : ∀ n ∈ t'.nodes, ∃ n₀ ∈ (t.grow path inputs).nodes, f n₀ = n := by
    intro n hn
    rw [hnodes] at hn
    exact Array.mem_map.mp hn
  constructor
  case distinct => exact (distinct_of_map f hkeys hnodes).mpr (distinct_grow h.distinct hnew inputs)
  case origin =>
      intro n hn
      obtain ⟨n₀, hn₀, rfl⟩ := hmap n hn
      simpa [hf] using h.origin_grow hpath hn₀
  case holds => exact fun q m hq => (hhas _).mpr (h.holds_grow q m hq)
  case paired =>
      intro n hn hopp'
      obtain ⟨n₀, hn₀, rfl⟩ := hmap n hn
      rw [hkeys, hhas] at hopp'
      simp only [hf, TreeNode.processed_doneAt, TreeNode.keys_doneAt]
      rcases mem_grow hn₀ with hn₀ | rfl
      · rcases has_grow.mp hopp' with hopp' | heq
        · exact Or.inr (Or.inr (h.paired n₀ hn₀ hopp'))
        · exact Or.inl (eq_opposite heq)
      · exact Or.inr (Or.inl rfl)
  case reason =>
      intro n hn hproc
      obtain ⟨n₀, hn₀, rfl⟩ := hmap n hn
      simp only [hf, TreeNode.processed_doneAt, TreeNode.keys_doneAt, TreeNode.path_doneAt] at hproc ⊢
      rw [hhas, has_grow]
      rcases hproc with heq | heq | hproc
      · exact Or.inr (Or.inr (by rw [heq, opposite_opposite]))
      · exact Or.inr (Or.inl (by rwa [heq]))
      · rcases mem_grow hn₀ with hn₀ | rfl
        · exact (h.reason n₀ hn₀ hproc).imp_right Or.inl
        · cases hproc

/-- Adding a path. -/
theorem Merges.observe (h : t.Merges seen done) (hpath : path ≠ []) (inputs : InputMap) :
    (t.observe path inputs).Merges (fun q m => seen q m ∨ q = path ∧ m = inputs) done := by
  by_cases hnew : t.Has path.keys
  · rw [observe_of_has hnew]
    refine ⟨h.distinct, fun n hn => ⟨(h.origin n hn).1, Or.inl (h.origin n hn).2⟩, ?_, h.paired, h.reason⟩
    rintro q m (hq | ⟨rfl, -⟩)
    · exact h.holds q m hq
    · exact hnew
  · rcases nodes_observe h.distinct hpath hnew inputs with ⟨hopp, heq⟩ | ⟨hopp, hnodes⟩
    · rw [heq]
      exact h.grow hpath hnew hopp inputs
    · exact h.grow_paired hpath hnew hopp hnodes

theorem Merges.insertAfter (h : t.Merges seen done) (inputs : InputMap) (before ps : Trace) :
    (insertAfter inputs before ps t).Merges
      (fun q m => seen q m ∨ m = inputs ∧ ∃ s, s ≠ [] ∧ s <+: ps ∧ q = before ++ s) done := by
  induction ps generalizing t before seen with
  | nil =>
      refine h.congr fun q m => (or_iff_left ?_).symm
      rintro ⟨-, s, hs, hbegins, -⟩
      exact hs (List.prefix_nil.mp hbegins)
  | cons p ps ih =>
      rw [ConstraintTree.insertAfter]
      have hpath : before ++ [p] ≠ [] := List.append_ne_nil_of_right_ne_nil _ (List.cons_ne_nil _ _)
      refine (ih (h.observe hpath inputs) _).congr fun q m => ?_
      constructor
      · rintro ((hq | ⟨rfl, rfl⟩) | ⟨rfl, s, -, hbegins, rfl⟩)
        · exact Or.inl hq
        · exact Or.inr ⟨rfl, [p], List.cons_ne_nil _ _, by simp, rfl⟩
        · exact Or.inr ⟨rfl, p :: s, List.cons_ne_nil _ _, (List.prefix_cons_inj p).mpr hbegins, by simp⟩
      · rintro (hq | ⟨rfl, s, hs, hbegins, rfl⟩)
        · exact Or.inl (Or.inl hq)
        · rcases List.prefix_cons_iff.mp hbegins with rfl | ⟨s', rfl, hrest⟩
          · exact absurd rfl hs
          · cases s' with
            | nil => exact Or.inl (Or.inr ⟨rfl, rfl⟩)
            | cons d s' => exact Or.inr ⟨rfl, d :: s', List.cons_ne_nil _ _, hrest, by simp⟩

/-- Merging a trace adds every path that begins it. -/
theorem Merges.insert (h : t.Merges seen done) (trace : Trace) (inputs : InputMap) :
    (t.insert trace inputs).1.Merges (fun q m => seen q m ∨ m = inputs ∧ q ≠ [] ∧ q <+: trace) done := by
  refine (h.insertAfter inputs [] trace).congr fun q m => or_congr Iff.rfl (and_congr Iff.rfl ?_)
  constructor
  · rintro ⟨s, hs, hbegins, rfl⟩
    exact ⟨hs, hbegins⟩
  · exact fun ⟨hq, hbegins⟩ => ⟨q, hq, hbegins, rfl⟩

/-- Merging the trace of a further run. -/
theorem Merges.insert_run {runs : List (InputMap × Trace)} (h : t.Merges (SeenIn runs) done) (trace : Trace) (m : InputMap) :
    (t.insert trace m).1.Merges (SeenIn (runs ++ [(m, trace)])) done := by
  refine (h.insert trace m).congr fun q m' => ?_
  unfold SeenIn
  simp only [List.mem_append, List.mem_singleton, or_and_right, exists_or, exists_eq_left]

/-- There is a node for every path of decisions that begins a trace, and no other. -/
theorem Merges.has_iff {runs : List (InputMap × Trace)} (h : t.Merges (SeenIn runs) done) :
    t.Has ks ↔ ks ≠ [] ∧ ∃ u ∈ runs, ks <+: u.2.keys := by
  constructor
  · rintro ⟨n, hn, rfl⟩
    obtain ⟨hnil, u, hu, -, -, hbegins⟩ := h.origin n hn
    exact ⟨Trace.keys_eq_nil.not.mpr hnil, u, hu, hbegins.map Predicate.key⟩
  · rintro ⟨hnil, u, hu, hbegins⟩
    have hkeys : Trace.keys (u.2.take ks.length) = ks := by
      rw [Trace.keys, List.map_take]
      exact (List.prefix_iff_eq_take.mp hbegins).symm
    have hseen : SeenIn runs (u.2.take ks.length) u.1 := by
      refine ⟨u, hu, rfl, fun hempty => hnil ?_, List.take_prefix _ _⟩
      rw [← hkeys, hempty]
      rfl
    exact hkeys ▸ h.holds _ u.1 hseen

/-! ### What a tree keeps -/

/-- Every node of the one tree is in the other, with its number, its path and its inputs, and stays processed. -/
def Keeps (t t' : ConstraintTree) : Prop :=
  ∀ (i : Nat) (n : TreeNode), t.nodes[i]? = some n → ∃ n' : TreeNode, t'.nodes[i]? = some n' ∧
    n'.path = n.path ∧ n'.inputs = n.inputs ∧ (n.processed = true → n'.processed = true)

theorem keeps_refl (t : ConstraintTree) : t.Keeps t := fun _ n hn => ⟨n, hn, rfl, rfl, id⟩

theorem Keeps.trans {t' t'' : ConstraintTree} (h : t.Keeps t') (h' : t'.Keeps t'') : t.Keeps t'' := by
  intro i n hn
  obtain ⟨n', hn', hpath, hinputs, hproc⟩ := h i n hn
  obtain ⟨n'', hn'', hpath', hinputs', hproc'⟩ := h' i n' hn'
  exact ⟨n'', hn'', hpath'.trans hpath, hinputs'.trans hinputs, hproc' ∘ hproc⟩

theorem keeps_mark (t : ConstraintTree) (i : Nat) : t.Keeps (t.mark i) := by
  cases hi : t.nodes[i]? with
  | none =>
      rw [mark_of_none hi]
      exact keeps_refl t
  | some m =>
      intro j n hn
      rw [getElem?_mark hi]
      split_ifs with hij
      · rw [← hij, hi] at hn
        cases hn
        exact ⟨_, rfl, rfl, rfl, fun _ => rfl⟩
      · exact ⟨n, hn, rfl, rfl, id⟩

theorem keeps_grow (t : ConstraintTree) (path : Trace) (inputs : InputMap) : t.Keeps (t.grow path inputs) := by
  intro i n hn
  have hi : i ≠ t.nodes.size := ((Array.getElem?_eq_some_iff.mp hn).1).ne
  refine ⟨n, ?_, rfl, rfl, id⟩
  unfold grow
  rw [Array.getElem?_push, if_neg hi, hn]

theorem keeps_observe (t : ConstraintTree) (path : Trace) (inputs : InputMap) :
    t.Keeps (t.observe path inputs) := by
  unfold observe
  split
  · exact keeps_refl t
  · dsimp only
    split
    · exact ((keeps_grow t path inputs).trans (keeps_mark _ _)).trans (keeps_mark _ _)
    · exact keeps_grow t path inputs

theorem keeps_insertAfter (inputs : InputMap) (before ps : Trace) (t : ConstraintTree) :
    t.Keeps (insertAfter inputs before ps t) := by
  induction ps generalizing before t with
  | nil => exact keeps_refl t
  | cons p ps ih => exact (keeps_observe t _ inputs).trans (ih _ _)

theorem Keeps.size_le {t' : ConstraintTree} (h : t.Keeps t') : t.size ≤ t'.size := by
  by_contra hlt
  have hsize : t'.size < t.size := Nat.lt_of_not_le hlt
  obtain ⟨n', hn', -⟩ := h t'.size _ (Array.getElem?_eq_getElem hsize)
  exact absurd (Array.getElem?_eq_some_iff.mp hn').1 (Nat.lt_irrefl _)

/-! ### Pending nodes -/

/-- The nodes of the one tree are the first ones of the other, and pending there only if they are here. -/
def Extends (t t' : ConstraintTree) : Prop :=
  t.size ≤ t'.size ∧ ∀ i < t.size, Exploration.isPending t' i = true → Exploration.isPending t i = true

theorem Keeps.extends {t' : ConstraintTree} (h : t.Keeps t') : t.Extends t' := by
  refine ⟨h.size_le, fun i hi hpending => ?_⟩
  have hn := Array.getElem?_eq_getElem hi
  obtain ⟨n', hn', -, -, hproc⟩ := h i _ hn
  unfold Exploration.isPending at hpending ⊢
  rw [hn'] at hpending
  rw [hn, Option.any_some, Bool.not_eq_true']
  rw [Option.any_some, Bool.not_eq_true'] at hpending
  exact Bool.eq_false_iff.mpr fun h => by simp [hproc h] at hpending

/-- After a trace was merged, the pending nodes are new or were pending before. -/
theorem isPending_insert {trace : Trace} (h : Exploration.isPending (t.insert trace inputs).1 i = true) :
    Exploration.isPending t i = true ∨ i ∈ (t.insert trace inputs).2 := by
  obtain ⟨hsize, hold⟩ := (keeps_insertAfter inputs [] trace t).extends
  by_cases hi : i < t.size
  · exact Or.inl (hold i hi h)
  · refine Or.inr (List.mem_range'_1.mpr ⟨Nat.le_of_not_lt hi, ?_⟩)
    have hlt : i < (t.insert trace inputs).1.size := by
      by_contra hlt
      rw [Exploration.isPending, Array.getElem?_eq_none (Nat.le_of_not_lt hlt)] at h
      cases h
    change i < t.size + ((t.insert trace inputs).1.size - t.size)
    omega

end ConstraintTree
end Pathwise
