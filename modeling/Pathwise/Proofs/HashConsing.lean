import Pathwise.Proofs.Substitution

/-! Hash-consing. A builder evolves by requests and evaluations, and whichever function takes the
fingerprints of its nodes, even one under which all of them collide, the same holds of every builder that it
becomes: its terms bear the numbers from 1 up to the last one given, each number once; the children of a term
are held under lower numbers; two terms have one number exactly if they are one tree; a number once given
stays with its term; and the counts of lookups, hits and terms add up.

The counts follow from what interning does to them, since nothing else happens: every request and every
evaluation turns its builder into one that `Builder.Interned` leads to, so what interning any draft keeps holds
of every builder. -/

namespace Pathwise

open Builder

/-! ### Trees -/

namespace Term

mutual
/-- The tree of a term, without its numbers. -/
def bare {k : Ty} : Term k → Term k
  | .symbol _ name width => .symbol 0 name width
  | .const _ c => .const 0 c
  | .ite _ cond yes no => .ite 0 cond.bare yes.bare no.bare
  | .unary _ op arg => .unary 0 op arg.bare
  | .binary _ op left right => .binary 0 op left.bare right.bare
  | .nary _ op args => .nary 0 op (bareWords args)
  | .truth _ b => .truth 0 b
  | .not _ arg => .not 0 arg.bare
  | .compare _ op left right => .compare 0 op left.bare right.bare
  | .junction _ op args => .junction 0 op (bareConds args)

def bareWords : List (Term .word) → List (Term .word)
  | [] => []
  | t :: ts => t.bare :: bareWords ts

def bareConds : List (Term .bool) → List (Term .bool)
  | [] => []
  | t :: ts => t.bare :: bareConds ts
end

theorem bareWords_eq_map (ts : List (Term .word)) : bareWords ts = ts.map bare := by
  induction ts with
  | nil => rfl
  | cons t ts ih => rw [bareWords, ih, List.map_cons]

theorem bareConds_eq_map (ps : List Cond) : bareConds ps = ps.map bare := by
  induction ps with
  | nil => rfl
  | cons p ps ih => rw [bareConds, ih, List.map_cons]

end Term

namespace Builder

variable {b c : Builder} {k l : Ty}

/-- Lists of held terms are told apart by their trees if their members are. -/
theorem eq_of_map_bare {ts us : List (Term k)}
    (hts : ∀ t ∈ ts, ∀ u, b.Holds u → t.bare = u.bare → t = u) (hus : ∀ u ∈ us, b.Holds u)
    (h : ts.map Term.bare = us.map Term.bare) : ts = us := by
  induction ts generalizing us with
  | nil => exact (List.map_eq_nil_iff.mp h.symm).symm
  | cons t ts ih =>
      cases us with
      | nil => cases h
      | cons u us =>
          obtain ⟨hhead, htail⟩ := List.cons.inj h
          rw [List.forall_mem_cons] at hts hus
          rw [hts.1 u hus.1 hhead, ih hts.2 hus.2 htail]

/-- Held terms of one tree are one term: their children are, one level below, so they look alike. -/
theorem Consistent.eq_of_bare (hb : b.Consistent) {t : Term k} (ht : b.Holds t) :
    ∀ u, b.Holds u → t.bare = u.bare → t = u := by
  have hchildren := hb.children ht
  induction t using Term.induct with
  | symbol i name width =>
      intro u hu h
      cases u <;> simp only [Term.bare, Term.symbol.injEq, reduceCtorEq] at h
      exact hb.shared ht hu (by simp [Term.alike, h])
  | const i w =>
      intro u hu h
      cases u <;> simp only [Term.bare, Term.const.injEq, reduceCtorEq] at h
      exact hb.shared ht hu (by simp [Term.alike, h])
  | ite i cond yes no hcond hyes hno =>
      intro u hu h
      have hus := hb.children hu
      cases u <;> simp only [Term.bare, Term.ite.injEq, reduceCtorEq] at h
      have hcond := hcond hchildren.1 (hb.children hchildren.1) _ hus.1 h.2.1
      have hyes := hyes hchildren.2.1 (hb.children hchildren.2.1) _ hus.2.1 h.2.2.1
      have hno := hno hchildren.2.2 (hb.children hchildren.2.2) _ hus.2.2 h.2.2.2
      exact hb.shared ht hu (by simp [Term.alike, hcond, hyes, hno])
  | unary i op arg harg =>
      intro u hu h
      have hus := hb.children hu
      cases u <;> simp only [Term.bare, Term.unary.injEq, reduceCtorEq] at h
      have harg := harg hchildren (hb.children hchildren) _ hus h.2.2
      exact hb.shared ht hu (by simp [Term.alike, h.2.1, harg])
  | binary i op left right hleft hright =>
      intro u hu h
      have hus := hb.children hu
      cases u <;> simp only [Term.bare, Term.binary.injEq, reduceCtorEq] at h
      have hleft := hleft hchildren.1 (hb.children hchildren.1) _ hus.1 h.2.2.1
      have hright := hright hchildren.2 (hb.children hchildren.2) _ hus.2 h.2.2.2
      exact hb.shared ht hu (by simp [Term.alike, h.2.1, hleft, hright])
  | nary i op args hargs =>
      intro u hu h
      have hus := hb.children hu
      cases u <;> simp only [Term.bare, Term.nary.injEq, reduceCtorEq, Term.bareWords_eq_map] at h
      have hargs := eq_of_map_bare (fun t ht => hargs t ht (hchildren t ht) (hb.children (hchildren t ht))) hus h.2.2
      exact hb.shared ht hu (by simp [Term.alike, h.2.1, hargs])
  | truth i v =>
      intro u hu h
      cases u <;> simp only [Term.bare, Term.truth.injEq, reduceCtorEq] at h
      exact hb.shared ht hu (by simp [Term.alike, h])
  | not i arg harg =>
      intro u hu h
      have hus := hb.children hu
      cases u <;> simp only [Term.bare, Term.not.injEq, reduceCtorEq] at h
      have harg := harg hchildren (hb.children hchildren) _ hus h.2
      exact hb.shared ht hu (by simp [Term.alike, harg])
  | compare i op left right hleft hright =>
      intro u hu h
      have hus := hb.children hu
      cases u <;> simp only [Term.bare, Term.compare.injEq, reduceCtorEq] at h
      have hleft := hleft hchildren.1 (hb.children hchildren.1) _ hus.1 h.2.2.1
      have hright := hright hchildren.2 (hb.children hchildren.2) _ hus.2 h.2.2.2
      exact hb.shared ht hu (by simp [Term.alike, h.2.1, hleft, hright])
  | junction i op args hargs =>
      intro u hu h
      have hus := hb.children hu
      cases u <;> simp only [Term.bare, Term.junction.injEq, reduceCtorEq, Term.bareConds_eq_map] at h
      have hargs := eq_of_map_bare (fun t ht => hargs t ht (hchildren t ht) (hb.children (hchildren t ht))) hus h.2.2
      exact hb.shared ht hu (by simp [Term.alike, h.2.1, hargs])

/-- Held terms have one number exactly if they are one tree. -/
theorem Consistent.id_eq_iff (hb : b.Consistent) {t : Term k} {u : Term l} (ht : b.Holds t) (hu : b.Holds u) :
    t.id = u.id ↔ (⟨k, t.bare⟩ : Σ k, Term k) = ⟨l, u.bare⟩ := by
  constructor
  · intro h
    cases hb.distinct ht hu h
    rfl
  · intro h
    obtain ⟨rfl, h⟩ := Sigma.mk.inj h
    rw [hb.eq_of_bare ht u hu (eq_of_heq h)]

end Builder
/-! ### The terms of a table -/

section Table

variable {α : Type} {m : Std.TreeMap Nat (List α)} {fp : Nat}

/-- All that is filed in a table. -/
def filed (m : Std.TreeMap Nat (List α)) : List α := m.toList.flatMap (·.2)

theorem mem_filed {a : α} : a ∈ filed m ↔ ∃ fp, a ∈ m.getD fp [] := by
  simp only [filed, List.mem_flatMap, Prod.exists, Std.TreeMap.mem_toList_iff_getElem?_eq_some,
    Std.TreeMap.getD_eq_getD_getElem?]
  constructor
  · rintro ⟨fp, as, hfp, ha⟩
    exact ⟨fp, by rwa [hfp]⟩
  · rintro ⟨fp, ha⟩
    cases hfp : m[fp]? with
    | none => simp [hfp] at ha
    | some as => exact ⟨fp, as, hfp, by rwa [hfp] at ha⟩

/-- The entries whose key is not `fp`. -/
def without (fp : Nat) (es : List (Nat × List α)) : List (Nat × List α) :=
  es.filter fun e => decide ¬(fp == e.1) = true

theorem perm_cons_without {es : List (Nat × List α)} {as : List α} (hes : es.Pairwise fun e e' => e.1 ≠ e'.1)
    (h : (fp, as) ∈ es) : es.Perm ((fp, as) :: without fp es) := by
  induction es with
  | nil => cases h
  | cons e es ih =>
      obtain ⟨hhead, htail⟩ := List.pairwise_cons.mp hes
      rcases List.mem_cons.mp h with rfl | h
      · have hself : without fp es = es := List.filter_eq_self.mpr fun e he => by simpa using hhead e he
        have hdrop : without fp ((fp, as) :: es) = without fp es := by simp [without]
        rw [hdrop, hself]
      · have hkeep : without fp (e :: es) = e :: without fp es := by simp [without, Ne.symm (hhead _ h)]
        rw [hkeep]
        exact ((ih htail h).cons e).trans (List.Perm.swap _ _ _)

/-- The bucket of a fingerprint comes first, then what is filed under others. -/
theorem filed_perm (m : Std.TreeMap Nat (List α)) (fp : Nat) :
    (filed m).Perm (m.getD fp [] ++ (without fp m.toList).flatMap (·.2)) := by
  rw [Std.TreeMap.getD_eq_getD_getElem?]
  cases hfp : m[fp]? with
  | none =>
      have hself : without fp m.toList = m.toList := by
        refine List.filter_eq_self.mpr fun e he => ?_
        have he := Std.TreeMap.mem_toList_iff_getElem?_eq_some.mp he
        suffices h : fp ≠ e.1 by simpa using h
        rintro rfl
        cases hfp.symm.trans he
      rw [hself]
      exact List.Perm.refl _
  | some as =>
      have hmem : (fp, as) ∈ m.toList := Std.TreeMap.mem_toList_iff_getElem?_eq_some.mpr hfp
      have hdistinct : m.toList.Pairwise fun e e' => e.1 ≠ e'.1 :=
        Std.TreeMap.distinct_keys_toList.imp fun h => by simpa using h
      exact (perm_cons_without hdistinct hmem).flatMap_right _

/-- Filing adds one entry. -/
theorem filed_insert (m : Std.TreeMap Nat (List α)) (fp : Nat) (a : α) :
    (filed (m.insert fp (m.getD fp [] ++ [a]))).Perm (a :: filed m) := by
  calc List.Perm (filed (m.insert fp (m.getD fp [] ++ [a])))
        ((m.getD fp [] ++ [a]) ++ (without fp m.toList).flatMap (·.2)) :=
        Std.TreeMap.toList_insert_perm.flatMap_right _
    _ = m.getD fp [] ++ a :: (without fp m.toList).flatMap (·.2) := (List.append_cons _ _ _).symm
    List.Perm _ (a :: (m.getD fp [] ++ (without fp m.toList).flatMap (·.2))) := List.perm_middle
    List.Perm _ (a :: filed m) := (filed_perm m fp).symm.cons a

end Table

namespace Builder
variable {b c : Builder} {k l : Ty}

/-- All interned terms, words and conditions. -/
def nodes (b : Builder) : List (Σ k, Term k) :=
  (filed b.words).map (Sigma.mk .word) ++ (filed b.conds).map (Sigma.mk .bool)

/-- The numbers of all interned terms. -/
def ids (b : Builder) : List Nat := b.nodes.map fun n => n.2.id

theorem mem_nodes (hb : b.Consistent) {t : Term k} : (⟨k, t⟩ : Σ k, Term k) ∈ b.nodes ↔ b.Holds t := by
  have hbucket : b.Holds t ↔ ∃ fp, t ∈ b.bucket fp k := by
    refine ⟨fun h => ⟨_, h⟩, fun ⟨fp, h⟩ => ?_⟩
    rwa [← hb.filed h] at h
  rw [hbucket]
  cases k with
  | word => simp [nodes, mem_filed, bucket]
  | bool => simp [nodes, mem_filed, bucket]

theorem ids_file (b : Builder) (fp : Nat) (t : Term k) : (b.file fp t).ids.Perm (t.id :: b.ids) := by
  suffices h : (b.file fp t).nodes.Perm (⟨k, t⟩ :: b.nodes) from h.map _
  cases k with
  | word => exact ((filed_insert b.words fp t).map _).append_right _
  | bool => exact (((filed_insert b.conds fp t).map _).append_left _).trans List.perm_middle

/-- The numbers given are those up to the last one, each once, and the counts add up. -/
structure Counted (b : Builder) : Prop where
  ids : b.ids.Perm (List.range' 1 b.lastId)
  created : b.wordCount + b.condCount = b.lastId
  found : b.hits + b.wordCount + b.condCount = b.lookups

theorem counted_empty {scatter : List Nat → Nat} : ({ scatter } : Builder).Counted := ⟨.refl _, rfl, rfl⟩

end Builder

/-- Interning any draft keeps the counts. -/
theorem Build.intern_counted {b : Builder} {k : Ty} (d : Term k) (hb : b.Counted) : (intern d b).2.Counted := by
  obtain ⟨hids, hcreated, hfound⟩ := hb
  unfold intern
  dsimp only
  split
  · exact ⟨hids, hcreated, by dsimp only; omega⟩
  · refine ⟨(ids_file _ _ _).trans ?_, ?_, ?_⟩
    · rw [Term.id_withId]
      have hlast : ∀ fp (t : Term k), (({ b with lookups := b.lookups + 1, lastId := b.lastId + 1 } : Builder).file
          fp t).lastId = b.lastId + 1 := by cases k <;> exact fun _ _ => rfl
      rw [hlast, List.range'_1_concat, Nat.add_comm 1]
      exact (hids.cons _).trans (List.perm_append_singleton _ _).symm
    · cases k <;> (dsimp only [file]; omega)
    · cases k <;> (dsimp only [file]; omega)

/-! ### Interning is all that happens -/

/-- Interning drafts, one after the other, turns one builder into another. -/
inductive Builder.Interned (b : Builder) : Builder → Prop where
  | refl : Interned b b
  | intern {c : Builder} (h : Interned b c) {k : Ty} (d : Term k) : Interned b (Build.intern d c).2

theorem Builder.Interned.trans {b c d : Builder} (h : b.Interned c) (h' : c.Interned d) : b.Interned d := by
  induction h' with
  | refl => exact h
  | intern _ draft ih => exact ih.intern draft

namespace Build

open Term

variable {α β : Type}

/-- The computation changes the builder by interning alone. -/
def Interns (act : Build α) : Prop := ∀ b : Builder, b.Interned (act b).2

@[simp] theorem Interns.pure (a : α) : Interns (Pure.pure a : Build α) := fun _ => .refl

@[simp] theorem intern_interns {k : Ty} (d : Term k) : Interns (intern d) := fun _ => Interned.refl.intern d

theorem Interns.bind {act : Build α} {next : α → Build β} (h : Interns act) (hnext : ∀ a, Interns (next a)) :
    Interns (act >>= next) :=
  fun b => (h b).trans (hnext _ _)

theorem Interns.map {act : Build α} (f : α → β) (h : Interns act) : Interns (f <$> act) := h

@[simp] theorem const_interns (c : Word) : Interns (const c) := intern_interns _

@[simp] theorem truth_interns (v : Bool) : Interns (truth v) := intern_interns _

@[simp] theorem collect_interns (op : NaryOp) (width : Nat) (ts : List (Term .word)) :
    Interns (collect op width ts) := by
  unfold collect MonadTerms.collect
  split <;> simp

@[simp] theorem collectWith_interns (op : NaryOp) (width : Nat) (c : Word) (rest : List (Term .word)) :
    Interns (collectWith op width c rest) := by
  unfold collectWith MonadTerms.collectWith
  split_ifs
  · exact collect_interns _ _ _
  · exact (const_interns c).bind fun _ => collect_interns _ _ _

theorem add_interns (x y : Term .word) : Interns (add x y) := by
  unfold add MonadTerms.add
  split
  · exact const_interns _
  · split_ifs <;> simp

theorem nary_interns (op : NaryOp) (x y : Term .word) : Interns (nary op x y) := by
  cases op with
  | add => exact add_interns x y
  | mul => unfold nary MonadTerms.nary MonadTerms.mul; dsimp only; split_ifs <;> simp
  | and => unfold nary MonadTerms.nary MonadTerms.and; dsimp only; split_ifs <;> simp
  | or => unfold nary MonadTerms.nary MonadTerms.or; dsimp only; split_ifs <;> simp
  | xor => unfold nary MonadTerms.nary MonadTerms.xor; dsimp only; split_ifs <;> simp

theorem shift_interns (op : BinaryOp) (x y : Term .word) : Interns (shift op x y) := by
  unfold shift MonadTerms.shift
  split
  · exact intern_interns _
  · split_ifs
    · exact .pure _
    · split <;> simp
    · split <;> simp

theorem binary_interns (op : BinaryOp) (x y : Term .word) : Interns (binary op x y) := by
  cases op with
  | shl => exact shift_interns .shl x y
  | lshr => exact shift_interns .lshr x y
  | ashr => exact shift_interns .ashr x y
  | sdiv =>
      unfold binary MonadTerms.binary MonadTerms.sdiv
      dsimp only
      split
      · exact const_interns _
      · split_ifs <;> simp
  | srem =>
      unfold binary MonadTerms.binary MonadTerms.srem
      dsimp only
      split
      · exact const_interns _
      · split_ifs <;> simp

theorem ite_interns (guard : Cond) (yes no : Term .word) : Interns (ite guard yes no) := by
  unfold ite MonadTerms.ite
  split
  · exact .pure _
  · exact .pure _
  · split_ifs <;> simp

theorem bitNot_interns (x : Term .word) : Interns (bitNot x) := by
  unfold bitNot MonadTerms.bitNot
  split <;> simp

theorem compare_interns (op : CompareOp) (x y : Term .word) : Interns (compare op x y) := by
  unfold compare MonadTerms.compare
  split
  · exact truth_interns _
  · split_ifs <;> simp

theorem join_interns (op : Connective) (p q : Cond) : Interns (join op p q) := by
  unfold join
  split
  · split_ifs <;> simp
  · split_ifs <;> simp
  · split <;> simp

theorem foldlM_join_interns (ps : List Cond) (acc : Cond) : Interns (ps.foldlM (join .and) acc) := by
  induction ps generalizing acc with
  | nil => exact .pure acc
  | cons p ps ih => exact (join_interns .and acc p).bind ih

theorem negateSum_interns {ts : List (Term .word)} (hts : ∀ t ∈ ts, Interns (negate t)) (acc : Term .word) :
    Interns (negateSum acc ts) := by
  induction ts generalizing acc with
  | nil => exact .pure acc
  | cons t ts ih =>
      rw [List.forall_mem_cons] at hts
      exact hts.1.bind fun n => (add_interns acc n).bind fun acc' => ih hts.2 acc'

theorem negateJoin_interns (op : Connective) {ps : List Cond} (hps : ∀ p ∈ ps, Interns (negate p)) (acc : Cond) :
    Interns (negateJoin op acc ps) := by
  induction ps generalizing acc with
  | nil => exact .pure acc
  | cons p ps ih =>
      rw [List.forall_mem_cons] at hps
      exact hps.1.bind fun n => (join_interns op acc n).bind fun acc' => ih hps.2 acc'

theorem negate_interns {k : Ty} (t : Term k) : Interns (negate t) := by
  induction t using Term.induct with
  | symbol i name width => exact intern_interns _
  | const i c => exact const_interns _
  | ite i cond yes no => exact intern_interns _
  | unary i op arg =>
      unfold negate MonadTerms.negate
      split_ifs <;> simp
  | binary i op left right => exact intern_interns _
  | nary i op args hargs =>
      unfold negate MonadTerms.negate
      split
      · rw [List.forall_mem_cons] at hargs
        exact hargs.1.bind fun n => negateSum_interns hargs.2 n
      · exact intern_interns _
  | truth i v => exact truth_interns _
  | not i arg => exact .pure _
  | compare i op left right =>
      unfold negate MonadTerms.negate
      split <;> simp
  | junction i op args hargs =>
      unfold negate MonadTerms.negate
      split
      · rw [List.forall_mem_cons] at hargs
        exact hargs.1.bind fun n => negateJoin_interns op.dual hargs.2 n
      · exact intern_interns _

theorem unary_interns (op : UnaryOp) (x : Term .word) : Interns (unary op x) := by
  cases op with
  | not => exact bitNot_interns x
  | neg => exact negate_interns x

theorem checked_interns {k : Ty} {make : Term .word → Term .word → Build (Term k)} (x y : Term .word)
    (h : Interns (make x y)) : Interns (Checked.binary make x y) := by
  unfold Checked.binary
  split_ifs
  · exact h.bind fun t => .pure _
  · exact .pure _

theorem checkedIte_interns (guard : Cond) (yes no : Term .word) : Interns (Checked.ite guard yes no) := by
  unfold Checked.ite
  split_ifs
  · exact (ite_interns guard yes no).bind fun t => .pure _
  · exact .pure _

end Build

open Build in
/-- Every request, answered or refused, interns and does nothing else to the builder. -/
theorem Request.interns {k : Ty} (r : Request k) : Interns r.run := by
  cases r with
  | int v width => exact (const_interns _).map _
  | symbol name width => exact (intern_interns _).map _
  | unary op x => exact (unary_interns op x).map _
  | nary op x y => exact checked_interns x y (nary_interns op x y)
  | sub x y => exact (negate_interns y).bind fun n => checked_interns x n (add_interns x n)
  | binary op x y => exact checked_interns x y (binary_interns op x y)
  | ite guard yes no => exact checkedIte_interns guard yes no
  | truth v => exact (truth_interns v).map _
  | compare op x y => exact checked_interns x y (compare_interns op x y)
  | notEqual x y => exact checked_interns x y ((compare_interns .eq x y).bind fun p => negate_interns p)
  | boolNot p => exact (negate_interns p).map _
  | join op p q => exact (join_interns op p q).map _
  | all ps => exact ((truth_interns true).bind fun acc => foldlM_join_interns ps acc).map _

/-! ### Evaluation -/

namespace EvalM

variable {α β : Type}

/-- The computation changes the builder by interning alone. -/
def Interns (act : EvalM α) : Prop := ∀ s : Evaluation, s.builder.Interned (act s).2.builder

theorem Interns.pure (a : α) : Interns (Pure.pure a) := fun _ => .refl

theorem Interns.bind {act : EvalM α} {next : α → EvalM β} (h : Interns act) (hnext : ∀ a, Interns (next a)) :
    Interns (act >>= next) := by
  intro s
  have hact := h s
  rcases hrun : act s with ⟨a | e, s'⟩
  · rw [bind_of_error hrun]
    rwa [hrun] at hact
  · rw [bind_of_ok hrun]
    rw [hrun] at hact
    exact hact.trans (hnext _ _)

theorem Interns.lift {act : Build α} (h : Build.Interns act) : Interns (lift act) := fun s => h s.builder

theorem Interns.refusing {act : Build (Except OperandError α)} (h : Build.Interns act) : Interns (refusing act) := by
  refine (Interns.lift h).bind fun r => ?_
  cases r with
  | ok a => exact .pure a
  | error e => exact fun _ => .refl

theorem Interns.remember {k : Ty} {act : EvalM (Term k)} (h : Interns act) (id : Nat) :
    Interns (remember id act) := by
  intro s
  cases hmemo : s.memo[id]? with
  | some r =>
      obtain ⟨l, u⟩ := r
      by_cases hsort : l = k
      · subst hsort
        rw [remember_of_some hmemo]
        exact .refl
      · rw [remember_of_other hmemo hsort]
        exact .refl
  | none =>
      rw [remember_of_none hmemo]
      exact h.bind (fun u => Interns.bind (fun _ => .refl) fun _ => .pure u) s

end EvalM

namespace Term

open EvalM (Interns)

variable (m : Model)

theorem evalParts_interns (op : NaryOp) {ts : List (Term .word)} (hts : ∀ t ∈ ts, Interns (t.evalM m))
    (acc : Term .word) : Interns (evalParts m op acc ts) := by
  induction ts generalizing acc with
  | nil => exact .pure acc
  | cons t ts ih =>
      rw [List.forall_mem_cons] at hts
      exact hts.1.bind fun a =>
        (EvalM.Interns.refusing (Build.checked_interns acc a (Build.nary_interns op acc a))).bind
          fun acc' => ih hts.2 acc'

theorem evalConds_interns (op : Connective) {ps : List Cond} (hps : ∀ p ∈ ps, Interns (p.evalM m)) (acc : Cond) :
    Interns (evalConds m op acc ps) := by
  induction ps generalizing acc with
  | nil => exact .pure acc
  | cons p ps ih =>
      rw [List.forall_mem_cons] at hps
      exact hps.1.bind fun a => (EvalM.Interns.lift (Build.join_interns op acc a)).bind fun acc' => ih hps.2 acc'

theorem evalM_interns {k : Ty} (t : Term k) : Interns (t.evalM m) := by
  induction t using Term.induct with
  | symbol i name width =>
      unfold evalM
      split
      · exact .pure _
      · split_ifs
        · exact .lift (Build.const_interns _)
        · exact fun _ => .refl
  | const i c => exact .pure _
  | ite i cond yes no hcond hyes hno =>
      refine .remember (hcond.bind fun c => hyes.bind fun a => hno.bind fun b => ?_) i
      exact .refusing (Build.checkedIte_interns c a b)
  | unary i op arg harg => exact .remember (harg.bind fun a => .lift (Build.unary_interns op a)) i
  | binary i op left right hleft hright =>
      exact .remember (hleft.bind fun a => hright.bind fun b =>
        .refusing (Build.checked_interns a b (Build.binary_interns op a b))) i
  | nary i op args hargs =>
      unfold evalM
      split
      · exact .pure _
      · rw [List.forall_mem_cons] at hargs
        exact .remember (hargs.1.bind fun a => evalParts_interns m op hargs.2 a) i
  | truth i v => exact .pure _
  | not i arg harg => exact .remember (harg.bind fun a => .lift (Build.negate_interns a)) i
  | compare i op left right hleft hright =>
      exact .remember (hleft.bind fun a => hright.bind fun b =>
        .refusing (Build.checked_interns a b (Build.compare_interns op a b))) i
  | junction i op args hargs =>
      exact .remember ((EvalM.Interns.lift (Build.truth_interns _)).bind fun a => evalConds_interns m op hargs a) i

end Term

theorem Builder.Evolves.interned {b c : Builder} (h : b.Evolves c) : b.Interned c := by
  induction h with
  | refl => exact .refl
  | request h r hr ih => exact ih.trans (r.interns _)
  | @eval c h m k t ht ih => exact ih.trans (t.evalM_interns m { builder := c })

theorem Builder.Interned.counted {b c : Builder} (h : b.Interned c) (hb : b.Counted) : c.Counted := by
  induction h with
  | refl => exact hb
  | intern _ d ih => exact Build.intern_counted d ih

/-! ### Answers -/

/-- How operands of different widths are refused. -/
def Request.refusal {k : Ty} : Request k → OperandError
  | .ite .. => .branchSizes
  | _ => .sizes

/-- Operands of different widths are refused. -/
theorem Request.refused_of_not_sized {b : Builder} (hb : b.Consistent) {k : Ty} {r : Request k}
    (hr : r.Operands b.Holds) (h : ¬r.Sized) : (r.run b).1 = .error r.refusal := by
  have hchecked : ∀ {c : Builder} {k : Ty} {make : Term .word → Term .word → Build (Term k)} {x y : Term .word},
      x.width ≠ y.width → (Build.Checked.binary make x y c).1 = .error .sizes := by
    intro c k make x y hwidth
    rw [Build.Checked.binary, if_neg hwidth]
    rfl
  cases r with
  | nary op x y => exact hchecked h
  | binary op x y => exact hchecked h
  | compare op x y => exact hchecked h
  | notEqual x y => exact hchecked h
  | sub x y =>
      have hneg := (Build.neg_runs hb ⟨hr.2, rfl⟩).post.width
      exact hchecked fun hwidth => h (hwidth.trans hneg)
  | ite guard yes no =>
      have h : ¬yes.width = no.width := h
      change (Build.Checked.ite guard yes no b).1 = _
      rw [Build.Checked.ite, if_neg h]
      rfl
  | _ => exact absurd trivial h

/-- Only requests whose operands have one width are answered. -/
theorem Request.sized_of_ok {b : Builder} (hb : b.Consistent) {k : Ty} {r : Request k} (hr : r.Operands b.Holds)
    {t : Term k} (h : (r.run b).1 = .ok t) : r.Sized := by
  by_contra hsized
  rw [Request.refused_of_not_sized hb hr hsized] at h
  cases h

theorem Request.holds_of_ok {b : Builder} (hb : b.Consistent) {k : Ty} {r : Request k} (hr : r.Operands b.Holds)
    {t : Term k} (h : (r.run b).1 = .ok t) : (r.run b).2.Holds t :=
  Request.holds_of_run hb hr (Request.sized_of_ok hb hr h) h

theorem Build.holds_of_eval {b : Builder} (hb : b.Consistent) {m : Model} {k : Ty} {t u : Term k} (ht : b.Holds t)
    (h : (eval m t b).1 = .ok u) : (eval m t b).2.Holds u := by
  obtain ⟨-, -, ⟨u', hu', -, hreplaces⟩ | ⟨e, he, -⟩⟩ := eval_spec hb ht m
  · cases h.symm.trans hu'
    exact hreplaces.held
  · cases h.symm.trans he

/-- Whatever the fingerprints are, in every builder that requests and evaluations lead to the interned terms bear
the numbers from 1 to the last one given, each once, the children of a term are interned under lower numbers,
numbers are equal exactly if the trees are, a number stays with its term, the counts add up, and requests and
evaluations answer with interned terms. -/
theorem numbers_are_trees {scatter : List Nat → Nat} {b : Builder} (hb : Evolves { scatter } b) :
    (∀ {k : Ty} (t : Term k), (⟨k, t⟩ : Σ k, Term k) ∈ b.nodes ↔ b.Holds t) ∧
    b.ids.Perm (List.range' 1 b.lastId) ∧
    (∀ {k : Ty} (t : Term k), b.Holds t → t.Children fun u => b.Holds u ∧ u.id < t.id) ∧
    (∀ {k l : Ty} (t : Term k) (u : Term l), b.Holds t → b.Holds u →
      (t.id = u.id ↔ (⟨k, t.bare⟩ : Σ k, Term k) = ⟨l, u.bare⟩)) ∧
    (∀ c, b.Evolves c → ∀ {k : Ty} (t : Term k), b.Holds t →
      c.Holds t ∧ ∀ {l : Ty} (u : Term l), c.Holds u → u.id = t.id → (⟨l, u⟩ : Σ k, Term k) = ⟨k, t⟩) ∧
    b.wordCount + b.condCount = b.lastId ∧
    b.hits + b.wordCount + b.condCount = b.lookups ∧
    (∀ {k : Ty} (r : Request k) (t : Term k), r.Operands b.Holds → (r.run b).1 = .ok t → (r.run b).2.Holds t) ∧
    ∀ {k : Ty} (m : Model) (t u : Term k), b.Holds t → (Build.eval m t b).1 = .ok u →
      (Build.eval m t b).2.Holds u := by
  have hconsistent := hb.consistent
  obtain ⟨hids, hcreated, hfound⟩ := hb.interned.counted counted_empty
  refine ⟨fun t => mem_nodes hconsistent, hids, fun t ht => hconsistent.closed ht,
    fun t u ht hu => hconsistent.id_eq_iff ht hu, fun c hc k t ht => ?_, hcreated, hfound,
    fun r t hr h => Request.holds_of_ok hconsistent hr h, fun m t u ht h => Build.holds_of_eval hconsistent ht h⟩
  obtain ⟨hc, hle⟩ := hc.runs hconsistent
  exact ⟨ht.mono hle, fun u hu hid => hc.distinct hu (ht.mono hle) hid⟩

/-- A term and its evaluation in a builder whose fingerprints all collide. -/
theorem numbers_are_trees_of_collisions :
    let x : Term .word := .symbol 1 "x" 8
    let b₁ := ((Request.symbol "x" 8).run { scatter := fun _ => 0 }).2
    let b₂ := ((Request.compare .slt x x).run b₁).2
    let b := (Build.eval ⟨[("x", .ofInt 8 5)]⟩ x b₂).2
    Evolves { scatter := fun _ => 0 } b ∧ b.ids.Perm [1, 2, 3] ∧ b.wordCount + b.condCount = 3 ∧
      b.hits + b.wordCount + b.condCount = b.lookups := by
  intro x b₁ b₂ b
  have h₁ : Evolves { scatter := fun _ => 0 } b₁ := Evolves.refl.request (.symbol "x" 8) trivial
  have hx₁ : b₁.Holds x := Request.holds_of_run consistent_empty trivial trivial rfl
  have h₂ : Evolves { scatter := fun _ => 0 } b₂ := h₁.request (.compare .slt x x) ⟨hx₁, hx₁⟩
  have hx₂ : b₂.Holds x := hx₁.mono (Request.runs h₁.consistent (.compare .slt x x) ⟨hx₁, hx₁⟩).grows
  have hb : Evolves { scatter := fun _ => 0 } b := h₂.eval _ hx₂
  obtain ⟨-, hids, -, -, -, hcreated, hfound, -⟩ := numbers_are_trees hb
  have hlast : b.lastId = 3 := rfl
  rw [hlast] at hids hcreated
  exact ⟨hb, hids, hcreated, hfound⟩

end Pathwise
