import Pathwise.Proofs.TreeLinks

/-! The constraint tree as a prefix tree. Where links and paths agree, going down by one decision is adding a path to
the tree that has no links (`LinkedTree.Refines.visit`), and after any requests the two trees have the same nodes and
counts (`LinkedTree.refines_after`). What is known of the paths of the one tree is then true of the other. -/

namespace Pathwise

open PredicateKey

namespace LinkedTree

variable {t t' : LinkedTree} {i j p : Nat} {n : LinkedNode} {ks : List PredicateKey} {paths : List (List PredicateKey)}
  {q : Trace} {own : Predicate} {inputs : InputMap}

/-! ### The tree without its links -/

/-- The nodes below the root are those of the other tree, in order, and the counts are the same. -/
structure Refines (t : LinkedTree) (u : ConstraintTree) : Prop where
  links : Links t.nodes ([] :: u.paths)
  size : t.size = u.size
  solved : t.solved = u.solved
  root : ∀ {n : LinkedNode}, t.nodes[0]? = some n → n.predicate = none ∧ n.processed = false
  node : ∀ {i : Nat} {n : LinkedNode}, t.nodes[i + 1]? = some n →
    ∃ m, u.nodes[i]? = some m ∧ n.predicate = m.predicate? ∧ n.inputs = m.inputs ∧ n.processed = m.processed

variable {u : ConstraintTree} {m : TreeNode}

theorem refines_empty : Refines empty {} where
  links := links_empty
  size := rfl
  solved := rfl
  root hn := by
    cases hn
    exact ⟨rfl, rfl⟩
  node hn := by cases hn

theorem mark_of_none (h : t.nodes[i]? = none) : t.mark i = t := by
  unfold mark
  rw [h]

theorem mark_of_processed (h : t.nodes[i]? = some n) (hn : n.processed = true) : t.mark i = t := by
  unfold mark
  rw [h]
  exact if_pos hn

theorem getElem?_mark (h : t.nodes[i]? = some n) (j : Nat) :
    (t.mark i).nodes[j]? = if i = j then some { n with processed := true } else t.nodes[j]? := by
  by_cases hn : n.processed = true
  · rw [mark_of_processed h hn]
    split_ifs with hij
    · rw [← hij, h, ← hn]
    · rfl
  · unfold mark
    rw [h]
    dsimp only
    rw [if_neg hn]
    change (t.nodes.modify i _)[j]? = _
    rw [Array.getElem?_modify]
    split_ifs with hij
    · rw [← hij, h]
      rfl
    · rfl

theorem size_mark (t : LinkedTree) (i : Nat) : (t.mark i).nodes.size = t.nodes.size := by
  unfold mark
  split
  · rfl
  · split_ifs
    · rfl
    · exact Array.size_modify

theorem count_mark (t : LinkedTree) (i : Nat) : (t.mark i).size = t.size := by
  unfold mark
  split
  · rfl
  · split_ifs <;> rfl

theorem solved_mark (h : t.nodes[i]? = some n) :
    (t.mark i).solved = if n.processed then t.solved else t.solved + 1 := by
  unfold mark
  rw [h]
  exact apply_ite LinkedTree.solved _ _ _

theorem Links.mark (h : Links t.nodes paths) (i : Nat) : Links (t.mark i).nodes paths := by
  refine h.congr (size_mark t i) fun {j n'} hn' => ?_
  cases hi : t.nodes[i]? with
  | none =>
      rw [mark_of_none hi] at hn'
      exact ⟨n', hn', rfl, rfl, rfl, rfl⟩
  | some n =>
      rw [getElem?_mark hi] at hn'
      split_ifs at hn' with hij
      · cases hn'
        exact ⟨n, hij ▸ hi, rfl, rfl, rfl, rfl⟩
      · exact ⟨n', hn', rfl, rfl, rfl, rfl⟩

namespace Refines

theorem mark (h : t.Refines u) (i : Nat) : (t.mark (i + 1)).Refines (u.mark i) := by
  cases hi : t.nodes[i + 1]? with
  | none =>
      have hnone : u.nodes[i]? = none := by
        have hlength := h.links.length
        rw [List.length_cons, ConstraintTree.length_paths] at hlength
        rw [Array.getElem?_eq_none_iff] at hi ⊢
        change u.size ≤ i
        omega
      rw [mark_of_none hi, ConstraintTree.mark_of_none hnone]
      exact h
  | some n =>
      obtain ⟨m, hm, hown, hinputs, hproc⟩ := h.node hi
      refine ⟨?_, ?_, ?_, fun {n'} hn' => ?_, fun {j n'} hn' => ?_⟩
      · rw [ConstraintTree.paths_mark]
        exact h.links.mark _
      · rw [count_mark, ConstraintTree.size_mark, h.size]
      · rw [solved_mark hi, ConstraintTree.solved_mark hm, h.solved, hproc]
      · rw [getElem?_mark hi, if_neg (Nat.succ_ne_zero i)] at hn'
        exact h.root hn'
      · rw [getElem?_mark hi] at hn'
        rw [ConstraintTree.getElem?_mark hm]
        by_cases hij : i = j
        · rw [if_pos (congrArg (· + 1) hij)] at hn'
          cases hn'
          rw [if_pos hij]
          exact ⟨_, rfl, hown, hinputs, rfl⟩
        · rw [if_neg (fun heq => hij (Nat.succ_inj.mp heq))] at hn'
          rw [if_neg hij]
          exact h.node hn'

/-- Making a node that is not there. -/
theorem grow (h : t.Refines u) (hn : t.nodes[i]? = some n) {before : Trace}
    (hbefore : ([] :: u.paths)[i]? = some before.keys) (hnew : n.children.lookup own.key = none)
    (hi : i < t.nodes.size) (inputs : InputMap) :
    (t.grow i hi own inputs).Refines (u.grow (before ++ [own]) inputs) := by
  have hlinks := h.links.grow hn hbefore hnew hi inputs
  have hkeys : Trace.keys (before ++ [own]) = before.keys ++ [own.key] := Trace.keys_append _ _
  have hlength := h.links.length
  rw [List.length_cons, ConstraintTree.length_paths] at hlength
  refine ⟨?_, ?_, h.solved, fun {n'} hn' => ?_, fun {j n'} hn' => ?_⟩
  · rwa [ConstraintTree.paths_grow, hkeys]
  · change t.size + 1 = (u.nodes.push _).size
    rw [Array.size_push, h.size]
    rfl
  · obtain ⟨m, hm, heq, -⟩ := grow_of_ne hn hi hn' (Nat.zero_lt_of_lt hi).ne
    rw [heq]
    exact ⟨(h.root hm).1, (h.root hm).2⟩
  · change ∃ m, (u.nodes.push _)[j]? = some m ∧ _
    rw [Array.getElem?_push]
    by_cases hj : j = u.nodes.size
    · rw [getElem?_grow hn, if_pos (by rw [hlength, hj]; rfl)] at hn'
      cases hn'
      rw [if_pos hj]
      exact ⟨_, rfl, List.getLast?_concat.symm, rfl, rfl⟩
    · obtain ⟨m, hm, heq, -⟩ := grow_of_ne hn hi hn' (by rw [hlength]; exact fun heq => hj (Nat.succ_inj.mp heq))
      obtain ⟨m', hm', hown, hinputs, hproc⟩ := h.node hm
      rw [if_neg hj, heq]
      exact ⟨m', hm', hown, hinputs, hproc⟩

theorem nodes_size (h : t.Refines u) : t.nodes.size = u.size + 1 := by
  rw [h.links.length, List.length_cons, ConstraintTree.length_paths]

/-- There is a node at the end of the path in both trees or in neither. -/
theorem has_iff (hks : ks ≠ []) : u.Has ks ↔ ∃ j : Nat, ([] :: u.paths)[j]? = some ks := by
  rw [← ConstraintTree.mem_paths, ← List.mem_iff_getElem?, List.mem_cons, or_iff_right hks]

/-- The sibling in the one tree is the sibling in the other. -/
theorem sibling?_eq (h : t.Refines u) (hi : ([] :: u.paths)[i + 1]? = some q.keys) (hq : q ≠ []) (inputs : InputMap) :
    t.sibling? (i + 1) = (u.sibling? { path := q, inputs }).map (· + 1) := by
  have hne : opposite q.keys ≠ [] := by
    intro hnil
    exact hq (Trace.keys_eq_nil.mp (eq_opposite hnil))
  have hflat : u.sibling? { path := q, inputs } = u.find? (opposite q.keys) := ConstraintTree.sibling?_eq hq
  rw [hflat]
  cases hfind : u.find? (opposite q.keys) with
  | none =>
      rw [Option.map_none, Option.eq_none_iff_forall_ne_some]
      intro j hj
      rw [h.links.sibling?_eq_some_iff hi (Nat.succ_ne_zero i)] at hj
      exact ConstraintTree.find?_eq_none.mp hfind ((has_iff hne).mpr ⟨j, hj⟩)
  | some j =>
      obtain ⟨n, hn, hkeys⟩ := ConstraintTree.find?_eq_some hfind
      rw [Option.map_some, h.links.sibling?_eq_some_iff hi (Nat.succ_ne_zero i), List.getElem?_cons_succ,
        ConstraintTree.getElem?_paths, hn, Option.map_some, hkeys]

/-- Going down by one decision is adding the path that it ends. -/
theorem visit (h : t.Refines u) {before : Trace} (hbefore : ([] :: u.paths)[i]? = some before.keys)
    (hi : i < t.nodes.size) (own : Predicate) (inputs : InputMap) :
    (t.visit i hi own inputs).1.Refines (u.observe (before ++ [own]) inputs) ∧
      ([] :: (u.observe (before ++ [own]) inputs).paths)[(t.visit i hi own inputs).2.1]? =
        some (Trace.keys (before ++ [own])) := by
  have hkeys : Trace.keys (before ++ [own]) = before.keys ++ [own.key] := Trace.keys_append _ _
  have hne : before ++ [own] ≠ [] := List.append_ne_nil_of_right_ne_nil _ (List.cons_ne_nil _ _)
  have hkeys' : Trace.keys (before ++ [own]) ≠ [] := Trace.keys_eq_nil.not.mpr hne
  have hn : t.nodes[i]? = some t.nodes[i] := Array.getElem?_eq_getElem hi
  unfold LinkedTree.visit
  cases hlookup : t.nodes[i].children.lookup own.key with
  | some child =>
      have hchild := (h.links.children hn hbefore _ _).mp hlookup
      rw [← hkeys] at hchild
      rw [ConstraintTree.observe_of_has ((has_iff hkeys').mpr ⟨child, hchild⟩)]
      exact ⟨h, hchild⟩
  | none =>
      have hgrow := h.grow hn hbefore hlookup hi inputs
      have hfind : u.find? (Trace.keys (before ++ [own])) = none := by
        rw [ConstraintTree.find?_eq_none, has_iff hkeys', hkeys]
        rintro ⟨j, hj⟩
        exact h.links.fresh hn hbefore hlookup j hj
      have hlast : ([] :: (u.grow (before ++ [own]) inputs).paths)[u.size + 1]? =
          some (Trace.keys (before ++ [own])) := by
        rw [List.getElem?_cons_succ, ConstraintTree.paths_grow, ← ConstraintTree.length_paths,
          List.getElem?_concat_length]
      have hsibling := hgrow.sibling?_eq hlast hne inputs
      dsimp only
      rw [h.nodes_size, hsibling]
      cases hflat : (u.grow (before ++ [own]) inputs).sibling? { path := before ++ [own], inputs } with
      | none =>
          rw [ConstraintTree.observe_of_alone hfind hflat]
          exact ⟨hgrow, hlast⟩
      | some j =>
          rw [ConstraintTree.observe_of_sibling hfind hflat, ConstraintTree.paths_mark, ConstraintTree.paths_mark]
          exact ⟨(hgrow.mark u.size).mark j, hlast⟩

/-- Going down through a trace is adding the paths that it ends with each of its predicates. -/
theorem insertFrom (h : t.Refines u) {before : Trace} (hbefore : ([] :: u.paths)[i]? = some before.keys)
    (inputs : InputMap) (trace : Trace) :
    (insertFrom inputs i trace t).1.Refines (u.insertAfter inputs before trace) := by
  induction trace generalizing t u i before with
  | nil => exact h
  | cons own rest ih =>
      have hi : i < t.nodes.size := h.links.length ▸ (List.getElem?_eq_some_iff.mp hbefore).1
      obtain ⟨hvisit, hchild⟩ := h.visit hbefore hi own inputs
      rw [LinkedTree.insertFrom, dif_pos hi, ConstraintTree.insertAfter]
      exact ih hvisit hchild

end Refines

/-! ### New nodes -/

theorem nodes_visit (t : LinkedTree) (hi : i < t.nodes.size) (own : Predicate) (inputs : InputMap) :
    (t.visit i hi own inputs).2.2 = true ∧ (t.visit i hi own inputs).2.1 = t.nodes.size ∧
        (t.visit i hi own inputs).1.nodes.size = t.nodes.size + 1 ∨
      (t.visit i hi own inputs).2.2 = false ∧ (t.visit i hi own inputs).1 = t := by
  unfold visit
  split
  · exact Or.inr ⟨rfl, rfl⟩
  · refine Or.inl ?_
    dsimp only
    split
    · exact ⟨rfl, rfl, by rw [size_mark, size_mark, size_grow]⟩
    · exact ⟨rfl, rfl, size_grow t hi own inputs⟩

/-- The nodes that are answered are those that have been made, in order. -/
theorem created_insertFrom (inputs : InputMap) (trace : Trace) (i : Nat) (t : LinkedTree) :
    t.nodes.size ≤ (insertFrom inputs i trace t).1.nodes.size ∧ (insertFrom inputs i trace t).2 =
      List.range' t.nodes.size ((insertFrom inputs i trace t).1.nodes.size - t.nodes.size) := by
  induction trace generalizing i t with
  | nil => exact ⟨le_rfl, by rw [insertFrom, Nat.sub_self]; rfl⟩
  | cons own rest ih =>
      rw [insertFrom]
      split_ifs with hi
      · dsimp only
        obtain ⟨hle, hrest⟩ := ih (t.visit i hi own inputs).2.1 (t.visit i hi own inputs).1
        rcases nodes_visit t hi own inputs with ⟨hnew, hchild, hsize⟩ | ⟨hnew, hsame⟩
        · rw [hsize] at hle hrest
          refine ⟨Nat.le_of_succ_le hle, ?_⟩
          rw [hnew, if_pos rfl, hrest, ← Nat.sub_add_cancel (Nat.sub_pos_of_lt hle), List.range'_succ, ← Nat.sub_sub]
          exact congrArg (· :: _) hchild
        · rw [hnew, hsame]
          rw [hsame] at hle hrest
          exact ⟨hle, hrest⟩
      · exact ⟨le_rfl, by rw [Nat.sub_self]; rfl⟩

/-! ### What a tree keeps -/

/-- Every node of the one tree is in the other, at its address, with its predicate, inputs, parent and depth, and stays
processed. -/
def Keeps (t t' : LinkedTree) : Prop :=
  ∀ (i : Nat) (n : LinkedNode), t.nodes[i]? = some n → ∃ n' : LinkedNode, t'.nodes[i]? = some n' ∧
    n'.predicate = n.predicate ∧ n'.inputs = n.inputs ∧ n'.parent = n.parent ∧ n'.depth = n.depth ∧
    (n.processed = true → n'.processed = true)

theorem keeps_refl (t : LinkedTree) : t.Keeps t := fun _ n hn => ⟨n, hn, rfl, rfl, rfl, rfl, id⟩

theorem Keeps.trans {t'' : LinkedTree} (h : t.Keeps t') (h' : t'.Keeps t'') : t.Keeps t'' := by
  intro i n hn
  obtain ⟨n', hn', hown, hinputs, hparent, hdepth, hproc⟩ := h i n hn
  obtain ⟨n'', hn'', hown', hinputs', hparent', hdepth', hproc'⟩ := h' i n' hn'
  exact ⟨n'', hn'', hown'.trans hown, hinputs'.trans hinputs, hparent'.trans hparent, hdepth'.trans hdepth,
    hproc' ∘ hproc⟩

theorem keeps_mark (t : LinkedTree) (i : Nat) : t.Keeps (t.mark i) := by
  cases hi : t.nodes[i]? with
  | none =>
      rw [mark_of_none hi]
      exact keeps_refl t
  | some m =>
      intro j n hn
      rw [getElem?_mark hi]
      split_ifs with hij
      · rw [← hij, hi] at hn
        cases hn
        exact ⟨_, rfl, rfl, rfl, rfl, rfl, fun _ => rfl⟩
      · exact ⟨n, hn, rfl, rfl, rfl, rfl, id⟩

theorem keeps_grow (t : LinkedTree) (hi : i < t.nodes.size) (own : Predicate) (inputs : InputMap) :
    t.Keeps (t.grow i hi own inputs) := by
  intro j n hn
  have hj : j ≠ t.nodes.size := (Array.getElem?_eq_some_iff.mp hn).1.ne
  rw [getElem?_grow (Array.getElem?_eq_getElem hi), if_neg hj]
  by_cases hij : j = i
  · subst hij
    rw [Array.getElem?_eq_getElem hi, Option.some_inj] at hn
    rw [if_pos rfl, hn]
    exact ⟨_, rfl, rfl, rfl, rfl, rfl, id⟩
  · rw [if_neg hij]
    exact ⟨n, hn, rfl, rfl, rfl, rfl, id⟩

theorem keeps_visit (t : LinkedTree) (hi : i < t.nodes.size) (own : Predicate) (inputs : InputMap) :
    t.Keeps (t.visit i hi own inputs).1 := by
  unfold visit
  split
  · exact keeps_refl t
  · dsimp only
    split
    · exact ((keeps_grow t hi own inputs).trans (keeps_mark _ _)).trans (keeps_mark _ _)
    · exact keeps_grow t hi own inputs

theorem keeps_insertFrom (inputs : InputMap) (trace : Trace) (i : Nat) (t : LinkedTree) :
    t.Keeps (insertFrom inputs i trace t).1 := by
  induction trace generalizing i t with
  | nil => exact keeps_refl t
  | cons own rest ih =>
      rw [insertFrom]
      split_ifs with hi
      · exact (keeps_visit t hi own inputs).trans (ih _ _)
      · exact keeps_refl t

/-- A way down to a node stays one. -/
theorem Leads.mono (h : Leads t i q) (hkeeps : t.Keeps t') : Leads t' i q := by
  induction h with
  | root hn hparent hdepth =>
      obtain ⟨n', hn', -, -, hparent', hdepth', -⟩ := hkeeps _ _ hn
      exact .root hn' (hparent'.trans hparent) (hdepth'.trans hdepth)
  | child hn hparent hown hdepth _ ih =>
      obtain ⟨n', hn', hown', -, hparent', hdepth', -⟩ := hkeeps _ _ hn
      exact .child hn' (hparent'.trans hparent) (hown'.trans hown) (hdepth'.trans hdepth) ih

/-! ### Requests -/

def serve (t : LinkedTree) : TreeRequest → LinkedTree
  | .merge trace inputs => (t.insert trace inputs).1
  | .mark number => t.mark (number + 1)

/-- The tree after the requests, from an empty one. -/
def after (rs : List TreeRequest) : LinkedTree := rs.foldl serve empty

variable {rs : List TreeRequest}

theorem after_concat (rs : List TreeRequest) (r : TreeRequest) : after (rs ++ [r]) = (after rs).serve r :=
  List.foldl_concat _ _ _ _

theorem keeps_after (rs rs' : List TreeRequest) : (after rs).Keeps (after (rs ++ rs')) := by
  induction rs' using List.reverseRecOn with
  | nil =>
      rw [List.append_nil]
      exact keeps_refl _
  | append_singleton rs' r ih =>
      rw [← List.append_assoc, after_concat]
      cases r with
      | merge trace inputs => exact ih.trans (keeps_insertFrom inputs trace 0 _)
      | mark number => exact ih.trans (keeps_mark _ _)

/-- The trees with and without links stay the same, whatever is asked of them. -/
theorem refines_after (rs : List TreeRequest) : (after rs).Refines (.after rs) := by
  induction rs using List.reverseRecOn with
  | nil => exact refines_empty
  | append_singleton rs r ih =>
      rw [after_concat, ConstraintTree.after_concat]
      cases r with
      | merge trace inputs => exact ih.insertFrom rfl inputs trace
      | mark number => exact ih.mark number

/-! ### The prefix tree -/

/-- The address is that of a node below the root. -/
def IsNode (t : LinkedTree) (i : Nat) : Prop := i ≠ 0 ∧ i < t.nodes.size

/-- The tree is the prefix tree of the traces that the requests have merged. -/
structure IsPrefixTree (t : LinkedTree) (rs : List TreeRequest) : Prop where
  /-- There is one node for each path of decisions that begins a trace. -/
  nodes : Set.BijOn (fun i => (t.path i).keys) {i | t.IsNode i}
    {ks | ks ≠ [] ∧ ∃ u ∈ TreeRequest.traces rs, ks <+: u.keys}
  depth : ∀ i n, t.nodes[i]? = some n → n.depth = (t.path i).length
  query : ∀ i n, t.nodes[i]? = some n → n.predicate = (t.path i).getLast?
  size : t.size = ((TreeRequest.traces rs).flatMap Trace.beginnings).toFinset.card
  /-- Children are one decision longer, the parent is one shorter, and the sibling differs in the last. -/
  children : ∀ i n, t.nodes[i]? = some n → ∀ k j, n.children.lookup k = some j ↔
    t.IsNode j ∧ (t.path j).keys = (t.path i).keys ++ [k]
  parent : ∀ i, t.IsNode i → ∀ j, t.parent? i = some j ↔ t.IsNode j ∧ (t.path j).keys = (t.path i).keys.dropLast
  sibling : ∀ i, t.IsNode i → ∀ j, t.sibling? i = some j ↔ t.IsNode j ∧ (t.path j).keys = opposite (t.path i).keys
  /-- Siblings are both processed, and nothing else is but what was marked. -/
  covered : ∀ i j n n', t.sibling? i = some j → t.nodes[i]? = some n → t.nodes[j]? = some n' →
    n.processed = true ∧ n'.processed = true
  processed : ∀ number n, t.nodes[number + 1]? = some n → (n.processed = true ↔
    (∃ j, t.sibling? (number + 1) = some j) ∨
      ∃ before later, rs = before ++ .mark number :: later ∧ number < (after before).size)
  solved : t.solved = t.nodes.countP (·.processed)

namespace Refines

/-- The nodes are at the ends of the paths. -/
theorem isNode_path_iff (h : t.Refines u) :
    t.IsNode j ∧ (t.path j).keys = ks ↔ j ≠ 0 ∧ ([] :: u.paths)[j]? = some ks := by
  constructor
  · rintro ⟨⟨hroot, hlt⟩, rfl⟩
    obtain ⟨ks, hj⟩ := h.links.exists_path hlt
    rw [h.links.keys_path hj, hj]
    exact ⟨hroot, rfl⟩
  · rintro ⟨hroot, hj⟩
    exact ⟨⟨hroot, h.links.length ▸ (List.getElem?_eq_some_iff.mp hj).1⟩, h.links.keys_path hj⟩

theorem isNode_path_iff_of_ne_nil (h : t.Refines u) (hks : ks ≠ []) :
    t.IsNode j ∧ (t.path j).keys = ks ↔ ([] :: u.paths)[j]? = some ks := by
  rw [h.isNode_path_iff, and_iff_right_of_imp]
  rintro hj rfl
  exact hks (Option.some_inj.mp hj).symm

theorem getElem?_paths (h : t.Refines u) (hi : i < t.nodes.size) : ([] :: u.paths)[i]? = some (t.path i).keys := by
  obtain ⟨ks, hks⟩ := h.links.exists_path hi
  rw [h.links.keys_path hks, hks]

theorem keys_path (h : t.Refines u) (hm : u.nodes[i]? = some m) : (t.path (i + 1)).keys = m.keys := by
  apply h.links.keys_path
  rw [List.getElem?_cons_succ, ConstraintTree.getElem?_paths, hm]
  rfl

theorem opposite_ne_nil (h : t.Refines u) (hi : t.IsNode i) : opposite (t.path i).keys ≠ [] :=
  fun hnil => h.links.ne_nil (h.getElem?_paths hi.2) hi.1 (eq_opposite hnil)

theorem sibling?_iff (h : t.Refines u) (hi : t.IsNode i) (j : Nat) :
    t.sibling? i = some j ↔ t.IsNode j ∧ (t.path j).keys = opposite (t.path i).keys := by
  rw [h.links.sibling?_eq_some_iff (h.getElem?_paths hi.2) hi.1, h.isNode_path_iff_of_ne_nil (h.opposite_ne_nil hi)]

theorem isNode_of_sibling? (h : t.Refines u) (hsibling : t.sibling? i = some j) : t.IsNode i := by
  cases hn : t.nodes[i]? with
  | none =>
      rw [sibling?, hn] at hsibling
      cases hsibling
  | some n =>
      refine ⟨?_, (Array.getElem?_eq_some_iff.mp hn).1⟩
      rintro rfl
      rw [sibling?, hn, Option.bind_eq_bind, Option.bind_some, (h.links.root hn).1] at hsibling
      cases hsibling

/-- The other of two siblings has the one as its sibling. -/
theorem sibling?_comm (h : t.Refines u) (hsibling : t.sibling? i = some j) : t.sibling? j = some i := by
  have hi := h.isNode_of_sibling? hsibling
  obtain ⟨hj, hkeys⟩ := (h.sibling?_iff hi j).mp hsibling
  exact (h.sibling?_iff hj i).mpr ⟨hi, by rw [hkeys, opposite_opposite]⟩

theorem exists_sibling?_iff (h : t.Refines u) (hi : t.IsNode i) :
    (∃ j, t.sibling? i = some j) ↔ u.Has (opposite (t.path i).keys) := by
  simp only [h.links.sibling?_eq_some_iff (h.getElem?_paths hi.2) hi.1, has_iff (h.opposite_ne_nil hi)]

theorem query_eq (h : t.Refines u) (hn : t.nodes[i]? = some n) : n.predicate = (t.path i).getLast? := by
  obtain ⟨q, hq, -⟩ := h.links.leads (h.getElem?_paths (Array.getElem?_eq_some_iff.mp hn).1)
  rw [hq.path]
  cases hq with
  | root hn' _ _ => exact (h.root hn).1
  | child hn' _ hown _ _ =>
      rw [hn] at hn'
      cases hn'
      rw [hown, List.getLast?_concat]

theorem concat_prefix_iff {α : Type} {l s : List α} {x : α} :
    l ++ [x] <+: s ↔ s.take l.length = l ∧ s[l.length]? = some x := by
  constructor
  · rintro ⟨r, rfl⟩
    simp
  · rintro ⟨htake, hx⟩
    obtain ⟨hlt, hx⟩ := List.getElem?_eq_some_iff.mp hx
    refine ⟨s.drop (l.length + 1), ?_⟩
    conv_rhs => rw [← List.take_append_drop l.length s, htake, List.drop_eq_getElem_cons hlt, hx]
    simp

/-- A trace follows the node in the one tree that it follows in the other. -/
theorem isFollowedBy_eq (h : t.Refines u) (hm : u.nodes[i]? = some m) (trace : Trace) :
    t.isFollowedBy (i + 1) trace = m.isFollowedBy trace := by
  have hkeys := h.keys_path hm
  unfold LinkedTree.isFollowedBy TreeNode.isFollowedBy query? asserts TreeNode.predicate? TreeNode.asserts
  unfold TreeNode.keys at hkeys
  generalize m.path = q' at hkeys
  generalize t.path (i + 1) = q at hkeys
  obtain rfl | ⟨q, d, rfl⟩ := List.eq_nil_or_concat q <;> obtain rfl | ⟨q', d', rfl⟩ := List.eq_nil_or_concat q'
  · rfl
  · simp [Trace.keys] at hkeys
  · simp [Trace.keys] at hkeys
  · rw [List.concat_eq_append, List.concat_eq_append, Trace.keys_append, Trace.keys_append] at hkeys
    obtain ⟨hbefore, hlast⟩ := List.append_inj' hkeys rfl
    have hflip : d.flip.key = d'.flip.key := congrArg PredicateKey.flip (List.singleton_inj.mp hlast)
    have hlength : q.length = (Trace.keys q').length := by rw [← hbefore, Trace.keys, List.length_map]
    simp only [List.concat_eq_append, List.getLast?_concat, List.dropLast_concat]
    rw [Bool.eq_iff_iff, List.isPrefixOf_iff_prefix, concat_prefix_iff, ← hlength, ← hbefore, ← hflip, Bool.and_eq_true,
      Bool.and_eq_true, decide_eq_true_iff, beq_iff_eq, beq_iff_eq, Trace.keys, List.map_take, ← Trace.keys,
      ← List.getElem?_map, ← Trace.keys, and_assoc]
    refine and_iff_right_of_imp fun hnext => ?_
    have hlt := (List.getElem?_eq_some_iff.mp hnext.2).1
    rwa [Trace.keys, List.length_map] at hlt

/-- What is met on the way down to a node are predicates that nodes end with. -/
theorem mem_of_leads (h : t.Refines u) (hq : Leads t i q) (hd : own ∈ q) : ∃ m ∈ u.nodes, own ∈ m.path := by
  induction hq with
  | root => cases hd
  | @child i p n own' q hn hparent hown hdepth _ ih =>
      rcases List.mem_append.mp hd with hd | hd
      · exact ih hd
      · cases List.mem_singleton.mp hd
        cases i with
        | zero =>
            rw [(h.root hn).1] at hown
            cases hown
        | succ i =>
            obtain ⟨m, hm, hlast, -⟩ := h.node hn
            exact ⟨m, Array.mem_of_getElem? hm, List.mem_of_getLast? (hlast.symm.trans hown)⟩

/-- Where a key stands for one predicate, going up finds the path that the other tree has kept. -/
theorem path_eq (h : t.Refines u) (hm : u.nodes[i]? = some m)
    (hkey : ∀ m ∈ u.nodes, ∀ m' ∈ u.nodes, ∀ d ∈ m.path, ∀ d' ∈ m'.path, d.key = d'.key → d = d') :
    t.path (i + 1) = m.path := by
  have hkeys := h.keys_path hm
  have hi : ([] :: u.paths)[i + 1]? = some m.keys := by
    rw [List.getElem?_cons_succ, ConstraintTree.getElem?_paths, hm]
    rfl
  obtain ⟨q, hq, -⟩ := h.links.leads hi
  rw [hq.path] at hkeys ⊢
  have hlength : q.length = m.path.length := by
    have := congrArg List.length hkeys
    rwa [Trace.keys, TreeNode.keys, Trace.keys, List.length_map, List.length_map] at this
  refine List.ext_getElem hlength fun k hk hk' => ?_
  obtain ⟨m', hm', hmem⟩ := h.mem_of_leads hq (List.getElem_mem hk)
  refine hkey m' hm' m (Array.mem_of_getElem? hm) _ hmem _ (List.getElem_mem hk') ?_
  have hget := List.getElem_of_eq hkeys (show k < (Trace.keys q).length by rwa [Trace.keys, List.length_map])
  simpa [Trace.keys, TreeNode.keys] using hget

/-- The processed nodes are as many. -/
theorem countP_processed (h : t.Refines u) : t.nodes.countP (·.processed) = u.nodes.countP (·.processed) := by
  have hflags : t.nodes.toList.map (·.processed) = false :: u.nodes.toList.map (·.processed) := by
    have hsize := h.nodes_size
    apply List.ext_getElem?
    intro i
    rw [List.getElem?_map, Array.getElem?_toList]
    cases i with
    | zero =>
        have hn := Array.getElem?_eq_getElem (show 0 < t.nodes.size by omega)
        rw [hn, Option.map_some, (h.root hn).2]
        rfl
    | succ i =>
        rw [List.getElem?_cons_succ, List.getElem?_map, Array.getElem?_toList]
        cases hn : t.nodes[i + 1]? with
        | some n =>
            obtain ⟨m, hm, -, -, hproc⟩ := h.node hn
            rw [hm, Option.map_some, Option.map_some, hproc]
        | none =>
            have hnone : u.nodes[i]? = none := by
              rw [Array.getElem?_eq_none_iff] at hn ⊢
              change u.size ≤ i
              omega
            rw [hnone]
            rfl
  calc t.nodes.countP (·.processed) = (t.nodes.toList.map (·.processed)).countP id := by
        rw [List.countP_map, ← Array.countP_toList]
        rfl
    _ = (u.nodes.toList.map (·.processed)).countP id := by
        rw [hflags, List.countP_cons_of_neg Bool.false_ne_true]
    _ = u.nodes.countP (·.processed) := by
        rw [List.countP_map, ← Array.countP_toList]
        rfl

end Refines

/-- There is one node for each path that begins a trace. -/
theorem bijOn_nodes (rs : List TreeRequest) :
    Set.BijOn (fun i => ((after rs).path i).keys) {i | (after rs).IsNode i}
      {ks | ks ≠ [] ∧ ∃ u ∈ TreeRequest.traces rs, ks <+: u.keys} := by
  have h := refines_after rs
  refine ⟨fun i hi => ?_, fun i hi j hj hij => ?_, fun ks hks => ?_⟩
  · have hne := h.links.ne_nil (h.getElem?_paths hi.2) hi.1
    exact ConstraintTree.has_after.mp ((Refines.has_iff hne).mpr ⟨i, h.getElem?_paths hi.2⟩)
  · exact h.links.eq_of_path (h.getElem?_paths hi.2) ((h.getElem?_paths hj.2).trans (congrArg some hij.symm))
  · obtain ⟨i, hi⟩ := (Refines.has_iff hks.1).mp (ConstraintTree.has_after.mpr hks)
    exact ⟨i, (h.isNode_path_iff_of_ne_nil hks.1).mpr hi⟩

theorem processed_after_iff {number : Nat} (hn : (after rs).nodes[number + 1]? = some n) :
    n.processed = true ↔ (∃ j, (after rs).sibling? (number + 1) = some j) ∨
      ∃ before later, rs = before ++ .mark number :: later ∧ number < (after before).size := by
  have h := refines_after rs
  have hlt := (Array.getElem?_eq_some_iff.mp hn).1
  obtain ⟨m, hm, -, -, hproc⟩ := h.node hn
  rw [hproc, ConstraintTree.processed_after_iff hm, ← h.keys_path hm, h.exists_sibling?_iff ⟨Nat.succ_ne_zero _, hlt⟩]
  simp only [(refines_after _).size]

theorem processed_of_sibling? (hsibling : (after rs).sibling? i = some j) (hn : (after rs).nodes[i]? = some n) :
    n.processed = true := by
  obtain ⟨number, rfl⟩ := Nat.exists_eq_succ_of_ne_zero ((refines_after rs).isNode_of_sibling? hsibling).1
  exact (processed_after_iff hn).mpr (Or.inl ⟨j, hsibling⟩)

theorem isPrefixTree_after (rs : List TreeRequest) : (after rs).IsPrefixTree rs := by
  have h := refines_after rs
  constructor
  case nodes => exact bijOn_nodes rs
  case depth => exact fun i n hn => h.links.depth_eq hn
  case query => exact fun i n hn => h.query_eq hn
  case size => rw [h.size, ConstraintTree.size_after]
  case children =>
      intro i n hn k j
      have hi := h.getElem?_paths (Array.getElem?_eq_some_iff.mp hn).1
      have hne : ∀ ks : List PredicateKey, ks ++ [k] ≠ [] := fun ks => by simp
      rw [h.links.children hn hi, h.isNode_path_iff_of_ne_nil (hne _)]
  case parent =>
      intro i hi j
      rw [h.links.parent?_eq_some_iff (h.getElem?_paths hi.2) hi.1, h.isNode_path_iff]
  case sibling => exact fun i hi j => h.sibling?_iff hi j
  case covered =>
      intro i j n n' hsibling hn hn'
      exact ⟨processed_of_sibling? hsibling hn, processed_of_sibling? (h.sibling?_comm hsibling) hn'⟩
  case processed => exact fun number n hn => processed_after_iff hn
  case solved => rw [h.solved, h.countP_processed, ConstraintTree.tallied_after rs]

/-- The nodes that come with a merged trace are those of the new paths. -/
theorem keys_created (rs : List TreeRequest) (trace : Trace) (inputs : InputMap) :
    (((after rs).insert trace inputs).2.map fun i => (((after rs).insert trace inputs).1.path i).keys) =
      trace.beginnings.filter (· ∉ (ConstraintTree.after rs).paths) := by
  have h' : ((after rs).insert trace inputs).1.Refines ((ConstraintTree.after rs).insert trace inputs).1 :=
    (refines_after rs).insertFrom rfl inputs trace
  have hcreated : ((after rs).insert trace inputs).2 =
      List.range' (after rs).nodes.size (((after rs).insert trace inputs).1.nodes.size - (after rs).nodes.size) :=
    (created_insertFrom inputs trace 0 (after rs)).2
  have hpaths := ConstraintTree.paths_insert (.after rs) trace inputs
  set new := trace.beginnings.filter (· ∉ (ConstraintTree.after rs).paths)
  have hsize : ((after rs).insert trace inputs).1.nodes.size = (after rs).nodes.size + new.length := by
    rw [h'.nodes_size, (refines_after rs).nodes_size, ← ConstraintTree.length_paths, hpaths, List.length_append,
      ConstraintTree.length_paths, Nat.add_right_comm]
  rw [hcreated, hsize, Nat.add_sub_cancel_left]
  apply List.ext_getElem
  · rw [List.length_map, List.length_range']
  · intro k hk hk'
    have hlt : (after rs).nodes.size + k < ((after rs).insert trace inputs).1.nodes.size :=
      hsize ▸ Nat.add_lt_add_left hk' _
    have hpath := h'.getElem?_paths hlt
    rw [(refines_after rs).nodes_size, Nat.add_right_comm, List.getElem?_cons_succ, hpaths,
      ← ConstraintTree.length_paths, List.getElem?_append_right (Nat.le_add_right _ _), Nat.add_sub_cancel_left,
      List.getElem?_eq_getElem hk', Option.some_inj] at hpath
    rw [List.getElem_map, List.getElem_range', Nat.one_mul, hpath, (refines_after rs).nodes_size,
      ← ConstraintTree.length_paths, Nat.add_right_comm]

/-- On traces in which a key stands for one predicate the trees with and without links have the same paths. -/
theorem path_after {number : Nat} {m : TreeNode} (hm : (ConstraintTree.after rs).nodes[number]? = some m)
    (hkey : ∀ d ∈ (TreeRequest.traces rs).flatten, ∀ d' ∈ (TreeRequest.traces rs).flatten, d.key = d'.key → d = d') :
    (after rs).path (number + 1) = m.path := by
  have hmem : ∀ m ∈ (ConstraintTree.after rs).nodes, ∀ d ∈ m.path, d ∈ (TreeRequest.traces rs).flatten := by
    intro m hm d hd
    obtain ⟨-, u, hu, -, -, hbegins⟩ := (ConstraintTree.merges_after rs).origin m hm
    exact List.mem_flatten.mpr ⟨u.2, List.mem_map_of_mem hu, hbegins.subset hd⟩
  exact (refines_after rs).path_eq hm fun m hm m' hm' d hd d' hd' => hkey d (hmem m hm d hd) d' (hmem m' hm' d' hd')

end LinkedTree

/-- After any requests the tree is the prefix tree of the traces that were merged. Its size does not depend on their
order, merging a further trace answers the nodes of the paths that it is the first to begin with, the shortest first,
and every node stays where it is, with its path, and once processed for good. -/
theorem constraint_tree_is_prefix_tree (rs : List TreeRequest) :
    (LinkedTree.after rs).IsPrefixTree rs ∧
    (∀ rs', (TreeRequest.traces rs').Perm (TreeRequest.traces rs) →
      (LinkedTree.after rs').size = (LinkedTree.after rs).size) ∧
    (∀ trace inputs, (((LinkedTree.after rs).insert trace inputs).2.map fun i =>
        (((LinkedTree.after rs).insert trace inputs).1.path i).keys) =
      trace.beginnings.filter fun ks => ∀ u ∈ TreeRequest.traces rs, ks ∉ u.beginnings) ∧
    ∀ rs', (LinkedTree.after rs).Keeps (LinkedTree.after (rs ++ rs')) ∧
      ∀ i < (LinkedTree.after rs).nodes.size, (LinkedTree.after (rs ++ rs')).path i = (LinkedTree.after rs).path i := by
  refine ⟨LinkedTree.isPrefixTree_after rs, fun rs' hperm => ?_, fun trace inputs => ?_, fun rs' => ?_⟩
  · rw [(LinkedTree.refines_after _).size, (LinkedTree.refines_after _).size, ConstraintTree.size_after,
      ConstraintTree.size_after, List.toFinset_eq_of_perm _ _ (hperm.flatMap_right _)]
  · refine (LinkedTree.keys_created rs trace inputs).trans (List.filter_congr fun ks hks => ?_)
    rw [decide_eq_decide, ConstraintTree.mem_paths, ConstraintTree.has_after]
    have hne := (Trace.mem_beginnings.mp hks).1
    simp only [Trace.mem_beginnings, hne, not_and, ne_eq, not_false_eq_true, true_and, not_exists]
  · have hkeeps := LinkedTree.keeps_after rs rs'
    refine ⟨hkeeps, fun i hi => ?_⟩
    have h := LinkedTree.refines_after rs
    obtain ⟨q, hq, -⟩ := h.links.leads (h.getElem?_paths hi)
    rw [hq.path, (hq.mono hkeeps).path]

/-- The traces take the condition again after it held, once as before and once the other way, and go on. Between
them the first node is marked. -/
theorem constraint_tree_is_prefix_tree_of_repeated_condition :
    let x : Term .word := .symbol 1 "x" intWidth
    let zero : Term .word := .const 2 (.ofInt64 0)
    let positive : Predicate := ⟨.compare 3 .sgt x zero, true, .compare 4 .sle x zero⟩
    let negative : Predicate := ⟨.compare 5 .slt x zero, false, .compare 6 .sge x zero⟩
    let short : TreeRequest := .merge [positive, positive] ⟨[⟨"x", 1, true⟩]⟩
    let long : TreeRequest := .merge [positive, positive.flip, negative] ⟨[⟨"x", 2, true⟩]⟩
    let rs : List TreeRequest := [short, .mark 0, long]
    (TreeRequest.traces [long, short]).Perm (TreeRequest.traces rs) ∧
      (LinkedTree.after [long, short]).size = 4 ∧ (LinkedTree.after rs).size = 4 ∧
      (LinkedTree.after rs).solved = 3 ∧ (LinkedTree.after rs).IsPrefixTree rs ∧
      ((LinkedTree.after [short]).insert [positive, positive.flip, negative] ⟨[]⟩).2 = [3, 4] := by
  intro x zero positive negative short long rs
  have hperm : (TreeRequest.traces [long, short]).Perm (TreeRequest.traces rs) := List.Perm.swap _ _ _
  obtain ⟨htree, hsize, -, -⟩ := constraint_tree_is_prefix_tree rs
  have hfour : (LinkedTree.after rs).size = 4 := by decide +kernel
  exact ⟨hperm, (hsize _ hperm).trans hfour, hfour, by decide +kernel, htree, by decide +kernel⟩

end Pathwise
