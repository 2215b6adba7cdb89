import Mathlib.Data.Finset.Card
import Mathlib.Data.List.Infix
import Pathwise.Proofs.ConstraintTree

/-! The paths of a constraint tree. Whatever traces are merged and nodes marked, and in whatever order, the tree has one
node for each path of decisions that begins one of the traces. Merging a trace adds the nodes of the paths that begin it
and none before it, the shortest first (`ConstraintTree.paths_insert`), and the number of processed nodes is kept with
every mark (`ConstraintTree.Tallied`). -/

namespace Pathwise

open PredicateKey

/-- What is asked of a tree. -/
inductive TreeRequest where
  | merge (trace : Trace) (inputs : InputMap)
  | mark (number : Nat)

/-- The run that a request reports. -/
def TreeRequest.run? : TreeRequest → Option (InputMap × Trace)
  | .merge trace inputs => some (inputs, trace)
  | .mark _ => none

/-- The runs that were reported, in order. -/
def TreeRequest.runs (rs : List TreeRequest) : List (InputMap × Trace) := rs.filterMap run?

/-- The traces that were merged, in order. -/
def TreeRequest.traces (rs : List TreeRequest) : List Trace := (runs rs).map (·.2)

/-! ### Paths that begin a trace -/

namespace Trace

/-- The paths of decisions that begin the trace, the shortest first. -/
def beginnings (t : Trace) : List (List PredicateKey) := t.keys.inits.tail

theorem mem_beginnings {t : Trace} {ks : List PredicateKey} : ks ∈ t.beginnings ↔ ks ≠ [] ∧ ks <+: t.keys := by
  unfold beginnings
  cases hkeys : t.keys with
  | nil => simp
  | cons k rest =>
      rw [List.inits_cons, List.tail_cons]
      simp only [List.mem_map, List.mem_inits]
      constructor
      · rintro ⟨s, hs, rfl⟩
        exact ⟨List.cons_ne_nil _ _, (List.prefix_cons_inj k).mpr hs⟩
      · rintro ⟨hne, hbegins⟩
        obtain rfl | ⟨s, rfl, hs⟩ := List.prefix_cons_iff.mp hbegins
        · exact absurd rfl hne
        · exact ⟨s, hs, rfl⟩

theorem beginnings_cons (d : Predicate) (t : Trace) :
    beginnings (d :: t) = [d.key] :: t.beginnings.map (d.key :: ·) := by
  have hcons : ∀ (k : PredicateKey) (ks : List PredicateKey),
      (k :: ks).inits.tail = [k] :: ks.inits.tail.map (k :: ·) := by
    intro k ks
    cases ks <;> simp
  exact hcons d.key t.keys

end Trace

namespace ConstraintTree

variable {t : ConstraintTree} {ks : List PredicateKey} {i : Nat} {n : TreeNode}

/-! ### The paths of a tree -/

/-- The paths that the nodes are at the end of, by number. -/
def paths (t : ConstraintTree) : List (List PredicateKey) := t.nodes.toList.map TreeNode.keys

theorem mem_paths : ks ∈ t.paths ↔ t.Has ks := by
  unfold paths Has
  simp

theorem getElem?_paths (t : ConstraintTree) (i : Nat) : t.paths[i]? = t.nodes[i]?.map TreeNode.keys := by
  rw [paths, List.getElem?_map, Array.getElem?_toList]

theorem length_paths (t : ConstraintTree) : t.paths.length = t.size := by
  rw [paths, List.length_map, Array.length_toList, size]

theorem paths_mark (t : ConstraintTree) (i : Nat) : (t.mark i).paths = t.paths := by
  cases hi : t.nodes[i]? with
  | none => rw [mark_of_none hi]
  | some n =>
      apply List.ext_getElem?
      intro j
      rw [getElem?_paths, getElem?_paths, getElem?_mark hi]
      split_ifs with hij
      · rw [← hij, hi]
        rfl
      · rfl

theorem paths_grow (t : ConstraintTree) (path : Trace) (inputs : InputMap) :
    (t.grow path inputs).paths = t.paths ++ [path.keys] := by
  rw [paths, grow, Array.toList_push, List.map_append]
  rfl

/-- A path is added at the end, unless it is there. -/
theorem paths_observe (t : ConstraintTree) (path : Trace) (inputs : InputMap) :
    (t.observe path inputs).paths = t.paths ++ [path.keys].filter (· ∉ t.paths) := by
  by_cases hhas : t.Has path.keys
  · rw [observe_of_has hhas, List.filter_singleton, decide_eq_false (not_not_intro (mem_paths.mpr hhas))]
    exact (List.append_nil _).symm
  · rw [List.filter_singleton, decide_eq_true (mt mem_paths.mp hhas)]
    have hfind : t.find? path.keys = none := find?_eq_none.mpr hhas
    cases hsibling : (t.grow path inputs).sibling? { path, inputs } with
    | none =>
        rw [observe_of_alone hfind hsibling, paths_grow]
        rfl
    | some j =>
        rw [observe_of_sibling hfind hsibling, paths_mark, paths_mark, paths_grow]
        rfl

theorem paths_insertAfter (inputs : InputMap) (before ps : Trace) (t : ConstraintTree) :
    (insertAfter inputs before ps t).paths =
      t.paths ++ (ps.beginnings.map (before.keys ++ ·)).filter (· ∉ t.paths) := by
  induction ps generalizing before t with
  | nil => exact (List.append_nil _).symm
  | cons d ps ih =>
      have hkeys : Trace.keys (before ++ [d]) = before.keys ++ [d.key] := Trace.keys_append _ _
      set first := Trace.keys (before ++ [d])
      set later := (Trace.beginnings ps).map (first ++ ·)
      have hsplit : (Trace.beginnings (d :: ps)).map (before.keys ++ ·) = [first] ++ later := by
        rw [Trace.beginnings_cons, List.map_cons, ← hkeys, List.map_map, List.singleton_append]
        refine congrArg _ (List.map_congr_left fun ks _ => ?_)
        rw [hkeys, List.append_assoc]
        rfl
      -- What comes after the first step is longer than the path of that step.
      have hlonger : ∀ ks ∈ later, ks ∉ [first].filter (· ∉ t.paths) := by
        rintro _ hks hmem
        obtain ⟨ks, hbegins, rfl⟩ := List.mem_map.mp hks
        have heq := List.mem_singleton.mp (List.mem_of_mem_filter hmem)
        exact (Trace.mem_beginnings.mp hbegins).1 (List.append_right_eq_self.mp heq)
      have hlater : later.filter (· ∉ t.paths ++ [first].filter (· ∉ t.paths)) = later.filter (· ∉ t.paths) := by
        refine List.filter_congr fun ks hks => ?_
        simp only [List.mem_append, hlonger ks hks, or_false]
      rw [insertAfter, ih, paths_observe, hlater, hsplit, List.filter_append, List.append_assoc]

/-- Merging a trace adds the paths that begin it and are not there, the shortest first. -/
theorem paths_insert (t : ConstraintTree) (trace : Trace) (inputs : InputMap) :
    (t.insert trace inputs).1.paths = t.paths ++ trace.beginnings.filter (· ∉ t.paths) := by
  have h := paths_insertAfter inputs [] trace t
  change (insertAfter inputs [] trace t).paths = _
  rw [h]
  change _ ++ List.filter _ (trace.beginnings.map ([] ++ ·)) = _
  simp only [List.nil_append, List.map_id']

/-! ### Counting -/

/-- The count of processed nodes is right. -/
def Tallied (t : ConstraintTree) : Prop := t.solved = t.nodes.countP (·.processed)

theorem Tallied.mark (h : t.Tallied) (i : Nat) : (t.mark i).Tallied := by
  unfold ConstraintTree.mark
  cases hi : t.nodes[i]? with
  | none => exact h
  | some n =>
      obtain ⟨hlt, hn⟩ := Array.getElem?_eq_some_iff.mp hi
      dsimp only
      split_ifs with hproc
      · exact h
      · change t.solved + 1 = (t.nodes.setIfInBounds i _).countP _
        rw [Array.setIfInBounds, dif_pos hlt, Array.countP_set, hn, if_neg hproc, if_pos rfl, h]
        rfl

theorem Tallied.observe (h : t.Tallied) (path : Trace) (inputs : InputMap) : (t.observe path inputs).Tallied := by
  have hgrow : (t.grow path inputs).Tallied := by
    unfold Tallied grow
    rw [Array.countP_push]
    exact h
  by_cases hhas : t.Has path.keys
  · rwa [observe_of_has hhas]
  · have hfind : t.find? path.keys = none := find?_eq_none.mpr hhas
    cases hsibling : (t.grow path inputs).sibling? { path, inputs } with
    | none => rwa [observe_of_alone hfind hsibling]
    | some j =>
        rw [observe_of_sibling hfind hsibling]
        exact (hgrow.mark _).mark _

theorem Tallied.insertAfter (h : t.Tallied) (inputs : InputMap) (before ps : Trace) :
    (insertAfter inputs before ps t).Tallied := by
  induction ps generalizing before t with
  | nil => exact h
  | cons d ps ih => exact ih (h.observe _ inputs) _

/-! ### Requests -/

def serve (t : ConstraintTree) : TreeRequest → ConstraintTree
  | .merge trace inputs => (t.insert trace inputs).1
  | .mark i => t.mark i

/-- The tree after the requests, from an empty one. -/
def after (rs : List TreeRequest) : ConstraintTree := rs.foldl serve {}

theorem after_concat (rs : List TreeRequest) (r : TreeRequest) : after (rs ++ [r]) = (after rs).serve r :=
  List.foldl_concat _ _ _ _

theorem keeps_serve (t : ConstraintTree) (r : TreeRequest) : t.Keeps (t.serve r) := by
  cases r with
  | merge trace inputs => exact keeps_insertAfter inputs [] trace t
  | mark i => exact keeps_mark t i

theorem keeps_after (rs rs' : List TreeRequest) : (after rs).Keeps (after (rs ++ rs')) := by
  induction rs' using List.reverseRecOn with
  | nil =>
      rw [List.append_nil]
      exact keeps_refl _
  | append_singleton rs' r ih =>
      rw [← List.append_assoc, after_concat]
      exact ih.trans (keeps_serve _ r)

theorem tallied_after (rs : List TreeRequest) : (after rs).Tallied := by
  induction rs using List.reverseRecOn with
  | nil => rfl
  | append_singleton rs r ih =>
      rw [after_concat]
      cases r with
      | merge trace inputs => exact ih.insertAfter inputs [] trace
      | mark i => exact ih.mark i

/-- The node of the path was marked on request. -/
def Marked (rs : List TreeRequest) (q : Trace) : Prop :=
  ∃ before i later n, rs = before ++ .mark i :: later ∧ (after before).nodes[i]? = some n ∧ n.path = q

theorem Marked.concat {rs : List TreeRequest} {q : Trace} (h : Marked rs q) (r : TreeRequest) :
    Marked (rs ++ [r]) q := by
  obtain ⟨before, i, later, n, rfl, hn, hpath⟩ := h
  exact ⟨before, i, later ++ [r], n, by simp, hn, hpath⟩

theorem merges_after (rs : List TreeRequest) :
    (after rs).Merges (SeenIn (TreeRequest.runs rs)) (Marked rs) := by
  induction rs using List.reverseRecOn with
  | nil =>
      refine (merges_empty _).congr fun q m => ⟨False.elim, ?_⟩
      rintro ⟨u, hu, -⟩
      cases hu
  | append_singleton rs r ih =>
      rw [after_concat, TreeRequest.runs, List.filterMap_append]
      cases r with
      | merge trace inputs => exact (ih.insert_run trace inputs).resolve fun n _ hn => Or.inl (hn.concat _)
      | mark i =>
          change ((after rs).mark i).Merges (SeenIn (TreeRequest.runs rs ++ [])) _
          rw [List.append_nil]
          cases hi : (after rs).nodes[i]? with
          | none =>
              rw [mark_of_none hi]
              exact ih.resolve fun n _ hn => Or.inl (hn.concat _)
          | some n => exact ih.mark hi ⟨rs, i, [], n, rfl, hi, rfl⟩ fun q hq => hq.concat _

/-! ### Paths of the traces -/

variable {rs : List TreeRequest}

theorem has_after : (after rs).Has ks ↔ ks ≠ [] ∧ ∃ u ∈ TreeRequest.traces rs, ks <+: u.keys := by
  rw [(merges_after rs).has_iff]
  simp only [TreeRequest.traces, List.mem_map, exists_exists_and_eq_and]

theorem size_after (rs : List TreeRequest) :
    (after rs).size = ((TreeRequest.traces rs).flatMap Trace.beginnings).toFinset.card := by
  have hsame : (after rs).paths.toFinset = ((TreeRequest.traces rs).flatMap Trace.beginnings).toFinset := by
    ext ks
    rw [List.mem_toFinset, mem_paths, has_after, List.mem_toFinset, List.mem_flatMap]
    simp only [Trace.mem_beginnings]
    constructor
    · rintro ⟨hne, u, hu, hbegins⟩
      exact ⟨u, hu, hne, hbegins⟩
    · rintro ⟨u, hu, hne, hbegins⟩
      exact ⟨hne, u, hu, hbegins⟩
  have hnodup : (after rs).paths.Nodup := (merges_after rs).distinct
  rw [← hsame, List.toFinset_card_of_nodup hnodup, length_paths]

/-- Nodes are processed that have their opposite there or were marked on request. -/
theorem processed_after_iff (hi : (after rs).nodes[i]? = some n) :
    n.processed = true ↔ (after rs).Has (opposite n.keys) ∨
      ∃ before later, rs = before ++ .mark i :: later ∧ i < (after before).size := by
  have hn : n ∈ (after rs).nodes := Array.mem_of_getElem? hi
  constructor
  · intro hproc
    rcases (merges_after rs).reason n hn hproc with ⟨before, k, later, n₀, rfl, hn₀, hpath⟩ | hopposite
    · obtain ⟨n₁, hn₁, hpath₁, -⟩ := keeps_after before (.mark k :: later) k n₀ hn₀
      have hkeys : n₁.keys = n.keys := congrArg Trace.keys (hpath₁.trans hpath)
      obtain rfl := (merges_after _).distinct.eq_of_keys hn₁ hi hkeys
      exact Or.inr ⟨before, later, rfl, (Array.getElem?_eq_some_iff.mp hn₀).1⟩
    · exact Or.inl hopposite
  · rintro (hopposite | ⟨before, later, rfl, hlt⟩)
    · exact (merges_after rs).paired n hn hopposite
    · have hmarked : (after (before ++ [.mark i])).nodes[i]? =
          some { (after before).nodes[i] with processed := true } := by
        rw [after_concat, serve, getElem?_mark (Array.getElem?_eq_getElem hlt), if_pos rfl]
      obtain ⟨n', hn', -, -, hproc⟩ := keeps_after (before ++ [.mark i]) later i _ hmarked
      rw [List.append_assoc, List.singleton_append, hi] at hn'
      cases hn'
      exact hproc rfl

end ConstraintTree
end Pathwise
