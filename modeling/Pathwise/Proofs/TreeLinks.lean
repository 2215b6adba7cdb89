import Pathwise.Exploration.LinkedTree
import Pathwise.Proofs.PrefixTree

/-! The links of a constraint tree. What they say is compared with a list of paths of decisions, by address
(`LinkedTree.Links`): the parent of a node is one decision shorter, its children are one decision longer, and going up
from it meets the decisions of its path (`LinkedTree.Links.leads`). A new node adds its path to the list, and nothing
else changes (`LinkedTree.Links.grow`). -/

namespace Pathwise

open PredicateKey

namespace LinkedTree

variable {t t' : LinkedTree} {i j p : Nat} {n : LinkedNode} {ks : List PredicateKey} {paths : List (List PredicateKey)}
  {q : Trace} {own : Predicate} {inputs : InputMap}

/-! ### Going up -/

/-- Following the links down from the root, one meets the predicates and comes to the node. -/
inductive Leads (t : LinkedTree) : Nat → Trace → Prop where
  | root {n : LinkedNode} (hn : t.nodes[0]? = some n) (hparent : n.parent = none) (hdepth : n.depth = 0) : Leads t 0 []
  | child {i p : Nat} {n : LinkedNode} {own : Predicate} {q : Trace} (hn : t.nodes[i]? = some n)
      (hparent : n.parent = some p) (hown : n.predicate = some own) (hdepth : n.depth = q.length + 1)
      (h : Leads t p q) : Leads t i (q ++ [own])

theorem climb_root (hn : t.nodes[i]? = some n) (hp : n.parent = none) (path : Array (Option Predicate)) :
    t.climb i path = path := by
  rw [climb]
  split
  · rfl
  · next n' hn' =>
      rw [hn] at hn'
      cases hn'
      split
      · rfl
      · next hp' =>
          rw [hp] at hp'
          cases hp'

theorem climb_below (hn : t.nodes[i]? = some n) (hp : n.parent = some p) (path : Array (Option Predicate)) :
    t.climb i path = t.climb p (path.setIfInBounds (n.depth - 1) n.predicate) := by
  rw [climb]
  split
  · next hn' =>
      rw [hn] at hn'
      cases hn'
  · next n' hn' =>
      rw [hn] at hn'
      cases hn'
      split
      · next hp' =>
          rw [hp] at hp'
          cases hp'
      · next p' hp' =>
          rw [hp] at hp'
          cases hp'
          rfl

/-- Going up writes the predicates into the first places. -/
theorem Leads.climb (h : Leads t i q) (path : Array (Option Predicate)) (hsize : q.length ≤ path.size) :
    (t.climb i path).toList = q.map some ++ path.toList.drop q.length := by
  induction h generalizing path with
  | root hn hparent _ => exact congrArg Array.toList (climb_root hn hparent path)
  | @child i p n own q hn hparent hown hdepth _ ih =>
      have hlt : q.length < path.toList.length := by
        rw [Array.length_toList]
        rw [List.length_append] at hsize
        exact hsize
      have hsize' : q.length ≤ (path.setIfInBounds (n.depth - 1) n.predicate).size := by
        rw [Array.size_setIfInBounds]
        exact hlt.le
      rw [climb_below hn hparent, ih _ hsize', hdepth, Nat.add_sub_cancel, hown, Array.toList_setIfInBounds,
        List.map_append, List.append_assoc, List.length_append, List.drop_set, if_neg (lt_irrefl _), Nat.sub_self,
        List.drop_eq_getElem_cons hlt]
      rfl

theorem Leads.depth (h : Leads t i q) (hn : t.nodes[i]? = some n) : n.depth = q.length := by
  cases h with
  | root hn' _ hdepth =>
      rw [hn] at hn'
      cases hn'
      exact hdepth
  | child hn' _ _ hdepth _ =>
      rw [hn] at hn'
      cases hn'
      rw [hdepth, List.length_append]
      rfl

theorem Leads.path (h : Leads t i q) : t.path i = q := by
  have hn : ∃ n, t.nodes[i]? = some n := by
    cases h with
    | root hn _ _ => exact ⟨_, hn⟩
    | child hn _ _ _ _ => exact ⟨_, hn⟩
  obtain ⟨n, hn⟩ := hn
  have hdepth := h.depth hn
  have hclimb := h.climb (Array.replicate n.depth none) (by rw [Array.size_replicate, hdepth])
  rw [LinkedTree.path, hn]
  dsimp only
  rw [hclimb, Array.toList_replicate, hdepth, List.drop_replicate, Nat.sub_self, List.replicate_zero, List.append_nil]
  change (q.map some).filterMap id = q
  rw [List.filterMap_map]
  exact List.filterMap_some

/-! ### Links between paths -/

/-- The node at each address stands at the end of a path. Its parent is one decision shorter, and it has for a child
what is one decision longer. -/
structure Links (nodes : Array LinkedNode) (paths : List (List PredicateKey)) : Prop where
  length : nodes.size = paths.length
  distinct : paths.Nodup
  first : paths[0]? = some []
  root : ∀ {n : LinkedNode}, nodes[0]? = some n → n.parent = none ∧ n.depth = 0
  node : ∀ {i : Nat} {n : LinkedNode}, nodes[i]? = some n → i ≠ 0 → ∃ p ks own, n.parent = some p ∧
    n.predicate = some own ∧ n.depth = ks.length + 1 ∧ paths[p]? = some ks ∧ paths[i]? = some (ks ++ [own.key])
  children : ∀ {i : Nat} {n : LinkedNode} {ks : List PredicateKey}, nodes[i]? = some n → paths[i]? = some ks →
    ∀ k j, n.children.lookup k = some j ↔ paths[j]? = some (ks ++ [k])

theorem links_empty : Links empty.nodes [[]] where
  length := rfl
  distinct := List.nodup_singleton _
  first := rfl
  root hn := by
    cases hn
    exact ⟨rfl, rfl⟩
  node {i n} hn hi := by
    cases i with
    | zero => exact absurd rfl hi
    | succ i => cases hn
  children {i n ks} hn _ k j := by
    cases i with
    | succ i => cases hn
    | zero =>
        cases hn
        constructor
        · intro h
          cases h
        · intro h
          cases j with
          | zero => simp at h
          | succ j => cases h

namespace Links

variable {nodes nodes' : Array LinkedNode}

theorem exists_node (h : Links nodes paths) (hi : paths[i]? = some ks) : ∃ n, nodes[i]? = some n := by
  have hlt : i < nodes.size := h.length ▸ (List.getElem?_eq_some_iff.mp hi).1
  exact ⟨nodes[i], Array.getElem?_eq_getElem hlt⟩

theorem exists_path (h : Links nodes paths) (hi : i < nodes.size) : ∃ ks, paths[i]? = some ks := by
  have hlt : i < paths.length := h.length ▸ hi
  exact ⟨paths[i], List.getElem?_eq_getElem hlt⟩

theorem eq_of_path (h : Links nodes paths) (hi : paths[i]? = some ks) (hj : paths[j]? = some ks) : i = j :=
  (List.getElem?_inj (List.getElem?_eq_some_iff.mp hi).1 h.distinct).mp (hi.trans hj.symm)

/-- Only the root is at the end of no decision. -/
theorem ne_nil (h : Links nodes paths) (hi : paths[i]? = some ks) (hroot : i ≠ 0) : ks ≠ [] := by
  rintro rfl
  exact hroot (h.eq_of_path hi h.first)

/-- What is read of the links stays. -/
theorem congr (h : Links nodes paths) (hsize : nodes'.size = nodes.size)
    (hnode : ∀ {i : Nat} {n' : LinkedNode}, nodes'[i]? = some n' → ∃ n, nodes[i]? = some n ∧
      n'.predicate = n.predicate ∧ n'.parent = n.parent ∧ n'.children = n.children ∧ n'.depth = n.depth) :
    Links nodes' paths where
  length := hsize.trans h.length
  distinct := h.distinct
  first := h.first
  root hn' := by
    obtain ⟨n, hn, -, hparent, -, hdepth⟩ := hnode hn'
    rw [hparent, hdepth]
    exact h.root hn
  node hn' hi := by
    obtain ⟨n, hn, hown, hparent, -, hdepth⟩ := hnode hn'
    rw [hown, hparent, hdepth]
    exact h.node hn hi
  children hn' hi := by
    obtain ⟨n, hn, -, -, hchildren, -⟩ := hnode hn'
    rw [hchildren]
    exact h.children hn hi

/-- Every node can be led to by the predicates whose keys are its path. -/
theorem leads (h : Links t.nodes paths) (hi : paths[i]? = some ks) : ∃ q, Leads t i q ∧ q.keys = ks := by
  induction i using Nat.strong_induction_on generalizing ks with
  | _ i ih =>
      obtain ⟨n, hn⟩ := h.exists_node hi
      by_cases hroot : i = 0
      · subst hroot
        rw [h.first, Option.some_inj] at hi
        exact ⟨[], .root hn (h.root hn).1 (h.root hn).2, hi⟩
      · obtain ⟨p, ks', own, hparent, hown, hdepth, hp, hpath⟩ := h.node hn hroot
        rw [hi, Option.some_inj] at hpath
        obtain ⟨q, hq, hkeys⟩ := ih p (t.older hn hparent) hp
        have hlength : ks'.length = q.length := by rw [← hkeys, Trace.keys, List.length_map]
        refine ⟨q ++ [own], .child hn hparent hown (hlength ▸ hdepth) hq, ?_⟩
        rw [Trace.keys_append, hkeys, hpath]
        rfl

theorem keys_path (h : Links t.nodes paths) (hi : paths[i]? = some ks) : (t.path i).keys = ks := by
  obtain ⟨q, hq, hkeys⟩ := h.leads hi
  rw [hq.path, hkeys]

theorem depth_eq (h : Links t.nodes paths) (hn : t.nodes[i]? = some n) : n.depth = (t.path i).length := by
  obtain ⟨ks, hi⟩ := h.exists_path (Array.getElem?_eq_some_iff.mp hn).1
  obtain ⟨q, hq, -⟩ := h.leads hi
  rw [hq.path, hq.depth hn]

/-- The parent is one decision shorter, if that leaves any. -/
theorem parent?_eq_some_iff (h : Links t.nodes paths) (hi : paths[i]? = some ks) (hroot : i ≠ 0) :
    t.parent? i = some j ↔ j ≠ 0 ∧ paths[j]? = some ks.dropLast := by
  obtain ⟨n, hn⟩ := h.exists_node hi
  obtain ⟨p, ks', own, hparent, -, -, hp, hpath⟩ := h.node hn hroot
  obtain ⟨m, hm⟩ := h.exists_node hp
  rw [hi, Option.some_inj] at hpath
  have hroot' : m.parent.isNone = true ↔ p = 0 := by
    constructor
    · intro hnone
      by_contra hne
      obtain ⟨_, _, _, hsome, -⟩ := h.node hm hne
      rw [hsome] at hnone
      cases hnone
    · rintro rfl
      rw [(h.root hm).1]
      rfl
  have heq : t.parent? i = if p = 0 then none else some p := by
    simp only [parent?, hn, hparent, hm, Option.bind_eq_bind, Option.bind_some, hroot']
  rw [heq, hpath, List.dropLast_concat]
  constructor
  · intro hj
    split_ifs at hj with hzero
    cases hj
    exact ⟨hzero, hp⟩
  · rintro ⟨hj, hpath'⟩
    rw [h.eq_of_path hp hpath', if_neg hj]

/-- The sibling has the last decision turned. -/
theorem sibling?_eq_some_iff (h : Links t.nodes paths) (hi : paths[i]? = some ks) (hroot : i ≠ 0) :
    t.sibling? i = some j ↔ paths[j]? = some (opposite ks) := by
  obtain ⟨n, hn⟩ := h.exists_node hi
  obtain ⟨p, ks', own, hparent, hown, -, hp, hpath⟩ := h.node hn hroot
  obtain ⟨m, hm⟩ := h.exists_node hp
  rw [hi, Option.some_inj] at hpath
  have heq : t.sibling? i = m.children.lookup own.flip.key := by
    simp only [sibling?, hn, hparent, hm, hown, Option.bind_eq_bind, Option.bind_some]
  rw [heq, h.children hm hp, hpath, opposite_concat]
  rfl

end Links

/-! ### A new node -/

theorem getElem?_grow (hn : t.nodes[i]? = some n) (hi : i < t.nodes.size) (own : Predicate) (inputs : InputMap)
    (j : Nat) :
    (t.grow i hi own inputs).nodes[j]? =
      if j = t.nodes.size then
        some { predicate := some own, inputs := inputs, parent := some i, depth := n.depth + 1 }
      else if j = i then some { n with children := (own.key, t.nodes.size) :: n.children }
      else t.nodes[j]? := by
  have hget : t.nodes[i] = n := (Array.getElem?_eq_some_iff.mp hn).2
  change (Array.modify (t.nodes.push _) i _)[j]? = _
  rw [Array.getElem?_modify, Array.getElem?_push, hget]
  by_cases hj : j = t.nodes.size
  · rw [if_pos hj, if_pos hj, if_neg (hj ▸ hi.ne)]
  · rw [if_neg hj, if_neg hj]
    by_cases hij : i = j
    · rw [if_pos hij, if_pos hij.symm, ← hij, hn]
      rfl
    · rw [if_neg hij, if_neg (Ne.symm hij)]

theorem size_grow (t : LinkedTree) (hi : i < t.nodes.size) (own : Predicate) (inputs : InputMap) :
    (t.grow i hi own inputs).nodes.size = t.nodes.size + 1 := by
  change (Array.modify (t.nodes.push _) i _).size = _
  rw [Array.size_modify, Array.size_push]

theorem getElem?_concat_eq_some {α : Type} {l : List α} {x y : α} :
    (l ++ [x])[j]? = some y ↔ l[j]? = some y ∨ j = l.length ∧ x = y := by
  grind

/-- The other nodes stay, but for a link down. -/
theorem grow_of_ne (hn : t.nodes[i]? = some n) (hi : i < t.nodes.size) {n' : LinkedNode}
    (hn' : (t.grow i hi own inputs).nodes[j]? = some n') (hj : j ≠ t.nodes.size) :
    ∃ m, t.nodes[j]? = some m ∧ n' = { m with children := n'.children } ∧ (j ≠ i → n' = m) := by
  rw [getElem?_grow hn, if_neg hj] at hn'
  by_cases hij : j = i
  · rw [if_pos hij] at hn'
    cases hn'
    exact ⟨n, hij ▸ hn, rfl, fun hne => absurd hij hne⟩
  · rw [if_neg hij] at hn'
    exact ⟨n', hn', rfl, fun _ => rfl⟩

namespace Links

theorem shorter (h : Links t.nodes paths) {k : PredicateKey} (hj : paths[j]? = some (ks ++ [k])) :
    ∃ p : Nat, paths[p]? = some ks := by
  obtain ⟨n, hn⟩ := h.exists_node hj
  have hroot : j ≠ 0 := by
    rintro rfl
    rw [h.first, Option.some_inj] at hj
    exact absurd hj.symm (List.append_ne_nil_of_right_ne_nil _ (List.cons_ne_nil _ _))
  obtain ⟨p, ks', own, -, -, -, hp, hpath⟩ := h.node hn hroot
  rw [hj, Option.some_inj] at hpath
  exact ⟨p, (List.append_inj' hpath rfl).1 ▸ hp⟩

section

variable (h : Links t.nodes paths) (hn : t.nodes[i]? = some n) (hks : paths[i]? = some ks)
  (hnew : n.children.lookup own.key = none)

include h hn hks hnew

theorem fresh (j : Nat) : paths[j]? ≠ some (ks ++ [own.key]) := by
  intro hj
  rw [← h.children hn hks, hnew] at hj
  cases hj

/-- The children after a new path are those of the paths then. -/
theorem children_grow (hi : i < t.nodes.size) {n' : LinkedNode} {ks' : List PredicateKey}
    (hn' : (t.grow i hi own inputs).nodes[j]? = some n') (hks' : (paths ++ [ks ++ [own.key]])[j]? = some ks')
    (k : PredicateKey) (l : Nat) :
    n'.children.lookup k = some l ↔ (paths ++ [ks ++ [own.key]])[l]? = some (ks' ++ [k]) := by
  have hfresh := h.fresh hn hks hnew
  rw [getElem?_concat_eq_some]
  rw [getElem?_concat_eq_some] at hks'
  by_cases hsize : j = t.nodes.size
  · -- nothing goes on from a path that was not there
    rw [getElem?_grow hn, if_pos hsize] at hn'
    cases hn'
    have hnone : paths[j]? = none := List.getElem?_eq_none (by rw [hsize, h.length])
    obtain rfl : ks ++ [own.key] = ks' := (hks'.resolve_left (by rw [hnone]; exact (Option.some_ne_none _).symm)).2
    constructor
    · intro hl
      cases hl
    · rintro (hl | ⟨-, heq⟩)
      · obtain ⟨p, hp⟩ := h.shorter hl
        exact absurd hp (hfresh p)
      · exact absurd (List.append_right_eq_self.mp heq.symm) (List.cons_ne_nil _ _)
  · have hpath : paths[j]? = some ks' := hks'.resolve_right fun hlast => hsize (hlast.1.trans h.length.symm)
    rw [getElem?_grow hn, if_neg hsize] at hn'
    by_cases hij : j = i
    · rw [if_pos hij] at hn'
      cases hn'
      rw [hij, hks, Option.some_inj] at hpath
      subst hpath
      rw [List.lookup_cons]
      by_cases hk : k = own.key
      · subst hk
        rw [beq_self_eq_true]
        constructor
        · intro hl
          cases hl
          exact Or.inr ⟨h.length, rfl⟩
        · rintro (hl | ⟨hl, -⟩)
          · exact absurd hl (hfresh l)
          · rw [hl, h.length]
      · rw [beq_false_of_ne hk]
        refine (h.children hn hks k l).trans (or_iff_left fun hlast => hk ?_).symm
        exact (List.singleton_inj.mp (List.append_cancel_left hlast.2)).symm
    · rw [if_neg hij] at hn'
      refine (h.children hn' hpath k l).trans (or_iff_left fun hlast => hij ?_).symm
      exact h.eq_of_path hpath ((List.append_inj' hlast.2 rfl).1 ▸ hks)

/-- What is at the end of no path is made, and becomes the child for its decision. -/
theorem grow (hi : i < t.nodes.size) (inputs : InputMap) :
    Links (t.grow i hi own inputs).nodes (paths ++ [ks ++ [own.key]]) := by
  have hkept : ∀ {j : Nat} {ks' : List PredicateKey}, paths[j]? = some ks' →
      (paths ++ [ks ++ [own.key]])[j]? = some ks' := fun hj => getElem?_concat_eq_some.mpr (Or.inl hj)
  constructor
  case length => rw [size_grow, h.length, List.length_append, List.length_singleton]
  case distinct =>
      refine List.nodup_append.mpr ⟨h.distinct, List.nodup_singleton _, ?_⟩
      rintro ks' hmem _ hlast rfl
      obtain ⟨j, hj⟩ := List.mem_iff_getElem?.mp hmem
      exact h.fresh hn hks hnew j (List.mem_singleton.mp hlast ▸ hj)
  case first => exact hkept h.first
  case root =>
      intro n' hn'
      obtain ⟨m, hm, heq, -⟩ := grow_of_ne hn hi hn' (Nat.zero_lt_of_lt hi).ne
      rw [heq]
      exact ⟨(h.root hm).1, (h.root hm).2⟩
  case node =>
      intro j n' hn' hj
      by_cases hsize : j = t.nodes.size
      · have hdepth : n.depth = ks.length := by
          rw [h.depth_eq hn, ← h.keys_path hks, Trace.keys, List.length_map]
        rw [getElem?_grow hn, if_pos hsize] at hn'
        cases hn'
        exact ⟨i, ks, own, rfl, rfl, congrArg (· + 1) hdepth, hkept hks,
          getElem?_concat_eq_some.mpr (Or.inr ⟨hsize.trans h.length, rfl⟩)⟩
      · obtain ⟨m, hm, heq, -⟩ := grow_of_ne hn hi hn' hsize
        obtain ⟨p, ks', own', hparent, hown, hdepth, hp, hpath⟩ := h.node hm hj
        rw [heq]
        exact ⟨p, ks', own', hparent, hown, hdepth, hkept hp, hkept hpath⟩
  case children => exact fun hn' hks' k l => h.children_grow hn hks hnew hi hn' hks' k l

end

end Links

end LinkedTree

end Pathwise
