import Mathlib.Order.Basic
import Pathwise.Proofs.Denotation
import Pathwise.Term.Builder

/-! Interning. A consistent builder holds every tree once: its terms have distinct numbers, the
children of a term are held as well, and two terms that look alike are one. Interning a draft whose
children are held keeps this, only adds terms, and answers with the draft under its number.

What a computation over a builder does is said once, by `Build.Runs`: the builder stays consistent
and only grows, the result satisfies a property, and running the computation again, in this builder or
any later one, gives the same result and adds nothing. -/

namespace Pathwise

namespace Term

/-- A property of all children of a node. -/
def Children (P : ∀ {k : Ty}, Term k → Prop) {k : Ty} : Term k → Prop
  | .symbol .. | .const .. | .truth .. => True
  | .ite _ cond yes no => P cond ∧ P yes ∧ P no
  | .unary _ _ arg => P arg
  | .binary _ _ left right => P left ∧ P right
  | .nary _ _ args => ∀ t ∈ args, P t
  | .not _ arg => P arg
  | .compare _ _ left right => P left ∧ P right
  | .junction _ _ args => ∀ p ∈ args, P p

theorem Children.imp {P Q : ∀ {k : Ty}, Term k → Prop} (h : ∀ {k} (t : Term k), P t → Q t) {k : Ty}
    {t : Term k} (ht : t.Children P) : t.Children Q := by
  cases t with
  | symbol => trivial
  | const => trivial
  | truth => trivial
  | ite => exact ⟨h _ ht.1, h _ ht.2.1, h _ ht.2.2⟩
  | unary => exact h _ ht
  | binary => exact ⟨h _ ht.1, h _ ht.2⟩
  | nary => exact fun t hmem => h t (ht t hmem)
  | not => exact h _ ht
  | compare => exact ⟨h _ ht.1, h _ ht.2⟩
  | junction => exact fun p hmem => h p (ht p hmem)

/-- Induction over terms, with all terms below a node taken together. -/
theorem induct_children {motive : ∀ {k : Ty}, Term k → Prop}
    (h : ∀ {k : Ty} (t : Term k), t.Children motive → motive t) {k : Ty} (t : Term k) : motive t := by
  induction t using Term.induct with
  | symbol | const | truth => exact h _ trivial
  | ite i cond yes no hcond hyes hno => exact h _ ⟨hcond, hyes, hno⟩
  | unary i op arg ih => exact h _ ih
  | binary i op left right hleft hright => exact h _ ⟨hleft, hright⟩
  | nary i op args ih => exact h _ ih
  | not i arg ih => exact h _ ih
  | compare i op left right hleft hright => exact h _ ⟨hleft, hright⟩
  | junction i op args ih => exact h _ ih

/-- What holds of every node that constructors intern: operands have one width, and something under the
node is not a constant. -/
def Proper {k : Ty} : Term k → Prop
  | .symbol .. | .const .. | .truth .. => True
  | .ite _ cond yes no => no.width = yes.width ∧ cond.isConst = false
  | .unary _ _ arg => arg.isConst = false
  | .binary _ _ left right => right.width = left.width ∧ (left.isConst = false ∨ right.isConst = false)
  | .nary _ _ args => (∀ t ∈ args, t.width = firstWidth args) ∧ ∃ t ∈ args, t.isConst = false
  | .not _ arg => arg.isConst = false
  | .compare _ _ left right => right.width = left.width ∧ (left.isConst = false ∨ right.isConst = false)
  | .junction _ _ args => args ≠ [] ∧ ∀ p ∈ args, p.isConst = false

/-! ### Looking alike -/

@[simp] theorem children_withId {P : ∀ {k : Ty}, Term k → Prop} {k : Ty} (n : Nat) (t : Term k) :
    (t.withId n).Children P ↔ t.Children P := by
  cases t <;> rfl

@[simp] theorem proper_withId {k : Ty} (n : Nat) (t : Term k) : (t.withId n).Proper ↔ t.Proper := by
  cases t <;> rfl

theorem alike_withId_left {k : Ty} (n : Nat) (t u : Term k) : (t.withId n).alike u = t.alike u := by
  cases t <;> cases u <;> rfl

theorem alike_withId_self {k : Ty} (n : Nat) (t : Term k) : t.alike (t.withId n) = true := by
  cases t <;> simp [alike, withId]

theorem alike_symm {k : Ty} {t u : Term k} (h : t.alike u = true) : u.alike t = true := by
  cases t <;> cases u <;> simp_all [alike]

theorem alike_trans {k : Ty} {t u v : Term k} (h : t.alike u = true) (h' : u.alike v = true) :
    t.alike v = true := by
  cases t <;> cases u <;> (try cases h) <;> cases v <;> (try cases h') <;> simp_all [alike]

theorem code_eq_of_alike {k : Ty} {t u : Term k} (h : t.alike u = true) : t.code = u.code := by
  cases t <;> cases u <;> simp only [alike, Bool.and_eq_true, beq_iff_eq, Bool.false_eq_true] at h
  case symbol => rfl
  case const => rfl
  case ite => rfl
  case truth => rfl
  case not => rfl
  case unary op _ _ op' _ => obtain ⟨rfl, -⟩ := h; cases op <;> rfl
  case binary op _ _ _ op' _ _ => obtain ⟨⟨rfl, -⟩, -⟩ := h; cases op <;> rfl
  case nary op _ _ op' _ => obtain ⟨rfl, -⟩ := h; cases op <;> rfl
  case compare op _ _ _ op' _ _ => obtain ⟨⟨rfl, -⟩, -⟩ := h; cases op <;> rfl
  case junction op _ _ op' _ => obtain ⟨rfl, -⟩ := h; cases op <;> rfl

/-- Terms that look alike have one signature. -/
theorem signature_eq_of_alike {k : Ty} {t u : Term k} (h : t.alike u = true) : t.signature = u.signature := by
  unfold signature
  rw [code_eq_of_alike h]
  cases t <;> cases u <;>
    simp only [alike, Bool.and_eq_true, beq_iff_eq, decide_eq_true_eq, Bool.false_eq_true] at h <;>
    simp only [h]

end Term

/-! ### The table -/

namespace Builder

/-- Terms that look alike are filed in one bucket. -/
theorem fingerprint_eq_of_alike (b : Builder) {k : Ty} {t u : Term k} (h : t.alike u = true) :
    b.fingerprint t = b.fingerprint u :=
  congrArg b.scatter (Term.signature_eq_of_alike h)

theorem fingerprint_withId (b : Builder) {k : Ty} (n : Nat) (t : Term k) :
    b.fingerprint (t.withId n) = b.fingerprint t :=
  (b.fingerprint_eq_of_alike (Term.alike_withId_self n t)).symm

@[simp] theorem fingerprint_file (b : Builder) (fp : Nat) {k l : Ty} (t : Term k) (u : Term l) :
    (b.file fp t).fingerprint u = b.fingerprint u := by
  cases k <;> rfl

/-- The term is interned. -/
def Holds (b : Builder) {k : Ty} (t : Term k) : Prop := t ∈ b.bucket (b.fingerprint t) k

/-- A later builder holds what an earlier one held. -/
instance : Preorder Builder where
  le b c := ∀ (k : Ty) (t : Term k), b.Holds t → c.Holds t
  le_refl _ _ _ h := h
  le_trans _ _ _ hbc hcd k t h := hcd k t (hbc k t h)

theorem Holds.mono {b c : Builder} (h : b ≤ c) {k : Ty} {t : Term k} (ht : b.Holds t) : c.Holds t :=
  h k t ht

/-- The two builders hold the same terms in the same buckets and go on numbering alike. They may
have counted differently. -/
structure SameTable (b c : Builder) : Prop where
  scatter : b.scatter = c.scatter
  words : b.words = c.words
  conds : b.conds = c.conds
  lastId : b.lastId = c.lastId

theorem SameTable.refl (b : Builder) : b.SameTable b := ⟨rfl, rfl, rfl, rfl⟩

theorem SameTable.trans {b c d : Builder} (h : b.SameTable c) (h' : c.SameTable d) : b.SameTable d :=
  ⟨h.scatter.trans h'.scatter, h.words.trans h'.words, h.conds.trans h'.conds, h.lastId.trans h'.lastId⟩

theorem SameTable.symm {b c : Builder} (h : b.SameTable c) : c.SameTable b :=
  ⟨h.scatter.symm, h.words.symm, h.conds.symm, h.lastId.symm⟩

theorem SameTable.bucket_eq {b c : Builder} (h : b.SameTable c) (fp : Nat) (k : Ty) :
    b.bucket fp k = c.bucket fp k := by
  cases k with
  | word => rw [bucket, bucket, h.words]
  | bool => rw [bucket, bucket, h.conds]

theorem SameTable.fingerprint_eq {b c : Builder} (h : b.SameTable c) {k : Ty} (t : Term k) :
    b.fingerprint t = c.fingerprint t := by
  rw [fingerprint, fingerprint, h.scatter]

theorem SameTable.holds_iff {b c : Builder} (h : b.SameTable c) {k : Ty} {t : Term k} :
    b.Holds t ↔ c.Holds t := by
  rw [Holds, Holds, h.bucket_eq, h.fingerprint_eq]

theorem SameTable.le {b c : Builder} (h : b.SameTable c) : b ≤ c := fun _ _ ht => h.holds_iff.mp ht

/-- Filing adds one term to one bucket. -/
theorem mem_bucket_file (b : Builder) (fp : Nat) {k : Ty} (t : Term k) (fp' : Nat) {l : Ty} (u : Term l) :
    u ∈ (b.file fp t).bucket fp' l ↔
      u ∈ b.bucket fp' l ∨ fp' = fp ∧ (⟨l, u⟩ : Σ k, Term k) = ⟨k, t⟩ := by
  cases k with
  | word =>
      cases l with
      | word =>
          simp only [file, bucket, Std.TreeMap.getD_insert, Nat.compare_eq_eq]
          by_cases h : fp = fp'
          · simp [h]
          · simp [h, Ne.symm h]
      | bool => simp [file, bucket]
  | bool =>
      cases l with
      | word => simp [file, bucket]
      | bool =>
          simp only [file, bucket, Std.TreeMap.getD_insert, Nat.compare_eq_eq]
          by_cases h : fp = fp'
          · simp [h]
          · simp [h, Ne.symm h]

theorem holds_file (b : Builder) {k l : Ty} (t : Term k) (u : Term l) :
    (b.file (b.fingerprint t) t).Holds u ↔ b.Holds u ∨ (⟨l, u⟩ : Σ k, Term k) = ⟨k, t⟩ := by
  rw [Holds, mem_bucket_file, fingerprint_file]
  constructor
  · rintro (h | ⟨-, h⟩)
    · exact Or.inl h
    · exact Or.inr h
  · rintro (h | h)
    · exact Or.inl h
    · cases h
      exact Or.inr ⟨rfl, rfl⟩

/-- The invariant of a builder. -/
structure Consistent (b : Builder) : Prop where
  filed : ∀ {fp : Nat} {k : Ty} {t : Term k}, t ∈ b.bucket fp k → b.fingerprint t = fp
  numbered : ∀ {k : Ty} {t : Term k}, b.Holds t → 0 < t.id ∧ t.id ≤ b.lastId
  distinct : ∀ {k l : Ty} {t : Term k} {u : Term l}, b.Holds t → b.Holds u → t.id = u.id →
    (⟨k, t⟩ : Σ k, Term k) = ⟨l, u⟩
  shared : ∀ {k : Ty} {t u : Term k}, b.Holds t → b.Holds u → t.alike u = true → t = u
  proper : ∀ {k : Ty} {t : Term k}, b.Holds t → t.Proper
  closed : ∀ {k : Ty} {t : Term k}, b.Holds t → t.Children fun u => b.Holds u ∧ u.id < t.id

theorem Consistent.eq_of_id {b : Builder} (hb : b.Consistent) {k : Ty} {t u : Term k} (ht : b.Holds t)
    (hu : b.Holds u) (h : t.id = u.id) : t = u := by
  cases hb.distinct ht hu h
  rfl

theorem Consistent.children {b : Builder} (hb : b.Consistent) {k : Ty} {t : Term k} (ht : b.Holds t) :
    t.Children b.Holds :=
  (hb.closed ht).imp fun _ h => h.1

theorem Consistent.of_sameTable {b c : Builder} (h : b.SameTable c) (hc : c.Consistent) : b.Consistent where
  filed ht := (h.fingerprint_eq _).trans (hc.filed (h.bucket_eq _ _ ▸ ht))
  numbered ht := h.lastId ▸ hc.numbered (h.holds_iff.mp ht)
  distinct ht hu := hc.distinct (h.holds_iff.mp ht) (h.holds_iff.mp hu)
  shared ht hu := hc.shared (h.holds_iff.mp ht) (h.holds_iff.mp hu)
  proper ht := hc.proper (h.holds_iff.mp ht)
  closed ht := (hc.closed (h.holds_iff.mp ht)).imp fun _ hu => ⟨h.holds_iff.mpr hu.1, hu.2⟩

section Empty

variable {scatter : List Nat → Nat}

theorem bucket_empty (fp : Nat) (k : Ty) : ({ scatter } : Builder).bucket fp k = [] := by
  cases k <;> simp [bucket]

theorem not_holds_empty {k : Ty} (t : Term k) : ¬({ scatter } : Builder).Holds t := by
  simp [Holds, bucket_empty]

theorem consistent_empty : ({ scatter } : Builder).Consistent where
  filed h := by simp [bucket_empty] at h
  numbered h := absurd h (not_holds_empty _)
  distinct h := absurd h (not_holds_empty _)
  shared h := absurd h (not_holds_empty _)
  proper h := absurd h (not_holds_empty _)
  closed h := absurd h (not_holds_empty _)

end Empty

theorem Consistent.eq_of_map_id {b : Builder} (hb : b.Consistent) {k : Ty} :
    ∀ {ts us : List (Term k)}, (∀ t ∈ ts, b.Holds t) → (∀ u ∈ us, b.Holds u) →
      ts.map Term.id = us.map Term.id → ts = us
  | [], [], _, _, _ => rfl
  | t :: ts, u :: us, hts, hus, h => by
      rw [List.map_cons, List.map_cons, List.cons.injEq] at h
      rw [List.forall_mem_cons] at hts hus
      rw [hb.eq_of_id hts.1 hus.1 h.1, hb.eq_of_map_id hts.2 hus.2 h.2]

/-- A held term that looks like a draft over held children is the draft under the term's number. -/
theorem Consistent.eq_withId {b : Builder} (hb : b.Consistent) {k : Ty} {d t : Term k}
    (hd : d.Children b.Holds) (ht : b.Holds t) (h : d.alike t = true) : t = d.withId t.id := by
  have hchildren := hb.children ht
  cases d <;> cases t <;>
    simp only [Term.alike, Bool.and_eq_true, beq_iff_eq, decide_eq_true_eq, Bool.false_eq_true] at h <;>
    simp only [Term.Children] at hd hchildren
  case symbol => obtain ⟨rfl, rfl⟩ := h; rfl
  case const => cases h; rfl
  case ite =>
      rw [hb.eq_of_id hd.1 hchildren.1 h.1.1, hb.eq_of_id hd.2.1 hchildren.2.1 h.1.2,
        hb.eq_of_id hd.2.2 hchildren.2.2 h.2]
      rfl
  case unary => rw [h.1, hb.eq_of_id hd hchildren h.2]; rfl
  case binary => rw [h.1.1, hb.eq_of_id hd.1 hchildren.1 h.1.2, hb.eq_of_id hd.2 hchildren.2 h.2]; rfl
  case nary => rw [h.1, hb.eq_of_map_id hd hchildren h.2]; rfl
  case truth => cases h; rfl
  case not => rw [hb.eq_of_id hd hchildren h]; rfl
  case compare => rw [h.1.1, hb.eq_of_id hd.1 hchildren.1 h.1.2, hb.eq_of_id hd.2 hchildren.2 h.2]; rfl
  case junction => rw [h.1, hb.eq_of_map_id hd hchildren h.2]; rfl

/-- Filing a new node over held children, under the next number, keeps a builder consistent. -/
theorem Consistent.file {b : Builder} (hb : b.Consistent) {k : Ty} {d : Term k} (hproper : d.Proper)
    (hchildren : d.Children b.Holds) (hnew : ∀ t, b.Holds t → d.alike t = false) :
    (({ b with lastId := b.lastId + 1 } : Builder).file (b.fingerprint d)
      (d.withId (b.lastId + 1))).Consistent := by
  set t := d.withId (b.lastId + 1) with ht
  set c : Builder := { b with lastId := b.lastId + 1 }
  have hid : t.id = b.lastId + 1 := Term.id_withId _ _
  have hfp : b.fingerprint d = c.fingerprint t := (b.fingerprint_withId _ _).symm
  have hold : ∀ {l : Ty} {u : Term l}, c.Holds u ↔ b.Holds u := by
    intro l u
    cases l <;> rfl
  have hlast : (c.file (c.fingerprint t) t).lastId = b.lastId + 1 := by cases k <;> rfl
  have holds : ∀ {l : Ty} (u : Term l), (c.file (c.fingerprint t) t).Holds u ↔
      b.Holds u ∨ (⟨l, u⟩ : Σ k, Term k) = ⟨k, t⟩ := by
    intro l u
    rw [holds_file, hold]
  rw [hfp]
  constructor
  case filed =>
      intro fp l u hu
      rw [fingerprint_file]
      rcases (mem_bucket_file _ _ _ _ _).mp hu with hu | ⟨rfl, heq⟩
      · exact hb.filed (by cases l <;> exact hu)
      · cases heq
        rfl
  case numbered =>
      intro l u hu
      rw [hlast]
      rcases (holds u).mp hu with hu | heq
      · have := hb.numbered hu
        omega
      · cases heq
        omega
  case distinct =>
      intro l m u v hu hv huv
      rcases (holds u).mp hu with hu | hu <;> rcases (holds v).mp hv with hv | hv
      · exact hb.distinct hu hv huv
      · cases hv
        have := hb.numbered hu
        omega
      · cases hu
        have := hb.numbered hv
        omega
      · rw [hu, hv]
  case shared =>
      intro l u v hu hv huv
      rcases (holds u).mp hu with hu | hu <;> rcases (holds v).mp hv with hv | hv
      · exact hb.shared hu hv huv
      · cases hv
        have := Term.alike_symm huv
        rw [ht, Term.alike_withId_left, hnew u hu] at this
        cases this
      · cases hu
        rw [ht, Term.alike_withId_left, hnew v hv] at huv
        cases huv
      · cases hu
        cases hv
        rfl
  case proper =>
      intro l u hu
      rcases (holds u).mp hu with hu | hu
      · exact hb.proper hu
      · cases hu
        exact (Term.proper_withId _ _).mpr hproper
  case closed =>
      intro l u hu
      rcases (holds u).mp hu with hu | hu
      · exact (hb.closed hu).imp fun v hv => ⟨(holds v).mpr (Or.inl hv.1), hv.2⟩
      · cases hu
        refine (Term.children_withId _ _).mpr (hchildren.imp fun v hv => ⟨(holds v).mpr (Or.inl hv), ?_⟩)
        have := hb.numbered hv
        omega

end Builder

/-! ### Computations over a builder -/

namespace Build

open Builder

variable {α β : Type} {b : Builder}

/-- The computation, started in `b`, keeps the builder consistent and only adds to it, ends with
`post`, and in any later builder it gives the same result without adding anything. -/
structure Runs (act : Build α) (b : Builder) (post : α → Builder → Prop) : Prop where
  consistent : (act b).2.Consistent
  grows : b ≤ (act b).2
  post : post (act b).1 (act b).2
  again : ∀ c : Builder, c.Consistent → (act b).2 ≤ c → (act c).1 = (act b).1 ∧ (act c).2.SameTable c

theorem bind_apply (act : Build α) (next : α → Build β) (b : Builder) :
    (act >>= next) b = next (act b).1 (act b).2 := rfl

theorem pure_apply (a : α) (b : Builder) : (pure a : Build α) b = (a, b) := rfl

theorem Runs.pure (hb : b.Consistent) {a : α} {post : α → Builder → Prop} (h : post a b) :
    Runs (Pure.pure a) b post where
  consistent := hb
  grows := le_rfl
  post := h
  again c _ _ := ⟨rfl, .refl c⟩

theorem Runs.bind {act : Build α} {next : α → Build β} {mid : α → Builder → Prop}
    {post : β → Builder → Prop} (h : Runs act b mid)
    (hnext : ∀ a c, b ≤ c → c.Consistent → mid a c → Runs (next a) c post) :
    Runs (act >>= next) b post := by
  have h' := hnext _ _ h.grows h.consistent h.post
  refine ⟨h'.consistent, h.grows.trans h'.grows, h'.post, fun c hc hle => ?_⟩
  obtain ⟨hval, htable⟩ := h.again c hc (h'.grows.trans hle)
  obtain ⟨hval', htable'⟩ := h'.again (act c).2 (hc.of_sameTable htable) (hle.trans htable.symm.le)
  change (next (act c).1 (act c).2).1 = _ ∧ (next (act c).1 (act c).2).2.SameTable c
  rw [hval]
  exact ⟨hval', htable'.trans htable⟩

theorem Runs.imp {act : Build α} {post post' : α → Builder → Prop} (h : Runs act b post)
    (himp : ∀ a c, b ≤ c → c.Consistent → post a c → post' a c) : Runs act b post' :=
  ⟨h.consistent, h.grows, himp _ _ h.grows h.consistent h.post, h.again⟩

/-- The result of a computation is the one that it has in every later builder. -/
theorem Runs.settle {act : Build α} {post : α → Builder → Prop} (h : Runs act b post) :
    Runs act b fun a c => post a c ∧ ∀ d : Builder, d.Consistent → c ≤ d → (act d).1 = a ∧ (act d).2.SameTable d :=
  ⟨h.consistent, h.grows, ⟨h.post, h.again⟩, h.again⟩

theorem intern_of_find {k : Ty} {d t : Term k} (h : (b.bucket (b.fingerprint d) k).find? d.alike = some t) :
    (intern d b).1 = t ∧ (intern d b).2.SameTable b := by
  have hsame : ({ b with lookups := b.lookups + 1 } : Builder).SameTable b := ⟨rfl, rfl, rfl, rfl⟩
  unfold intern
  dsimp only
  rw [hsame.bucket_eq, hsame.fingerprint_eq, h]
  exact ⟨rfl, rfl, rfl, rfl, rfl⟩

theorem intern_of_not_find {k : Ty} {d : Term k} (h : (b.bucket (b.fingerprint d) k).find? d.alike = none) :
    intern d b = (d.withId (b.lastId + 1),
      ({ b with lookups := b.lookups + 1, lastId := b.lastId + 1 } : Builder).file (b.fingerprint d)
        (d.withId (b.lastId + 1))) := by
  have hsame : ({ b with lookups := b.lookups + 1 } : Builder).SameTable b := ⟨rfl, rfl, rfl, rfl⟩
  unfold intern
  dsimp only
  rw [hsame.bucket_eq, hsame.fingerprint_eq, h]

/-- Interning a draft that looks like a held term answers with that term. -/
theorem intern_of_held (hb : b.Consistent) {k : Ty} {d t : Term k} (ht : b.Holds t) (h : d.alike t = true) :
    (intern d b).1 = t ∧ (intern d b).2.SameTable b := by
  cases hfind : (b.bucket (b.fingerprint d) k).find? d.alike with
  | none =>
      have hmem : t ∈ b.bucket (b.fingerprint d) k := b.fingerprint_eq_of_alike h ▸ ht
      exact absurd h (List.find?_eq_none.mp hfind t hmem)
  | some u =>
      have hu : b.Holds u := by
        have hmem := List.mem_of_find?_eq_some hfind
        rwa [← hb.filed hmem] at hmem
      have halike : d.alike u = true := List.find?_some hfind
      have heq : u = t := hb.shared hu ht (Term.alike_trans (Term.alike_symm halike) h)
      exact heq ▸ intern_of_find hfind

/-- Interning a proper draft over held children answers with the draft under its number. -/
theorem intern_runs (hb : b.Consistent) {k : Ty} {d : Term k} (hproper : d.Proper)
    (hchildren : d.Children b.Holds) :
    Runs (intern d) b fun t c => c.Holds t ∧ t = d.withId t.id := by
  cases hfind : (b.bucket (b.fingerprint d) k).find? d.alike with
  | some t =>
      have ht : b.Holds t := by
        have hmem := List.mem_of_find?_eq_some hfind
        rwa [← hb.filed hmem] at hmem
      have halike : d.alike t = true := List.find?_some hfind
      obtain ⟨hval, htable⟩ := intern_of_find hfind
      refine ⟨hb.of_sameTable htable, htable.symm.le, ?_, fun c hc hle => ?_⟩
      · rw [hval]
        exact ⟨htable.holds_iff.mpr ht, hb.eq_withId hchildren ht halike⟩
      · rw [hval]
        exact intern_of_held hc (ht.mono (htable.symm.le.trans hle)) halike
  | none =>
      have hnew : ∀ t, b.Holds t → d.alike t = false := fun t ht => by
        by_contra h
        rw [Bool.not_eq_false] at h
        exact List.find?_eq_none.mp hfind t (b.fingerprint_eq_of_alike h ▸ ht) h
      set c : Builder := { b with lookups := b.lookups + 1 } with hc
      have hsame : c.SameTable b := ⟨rfl, rfl, rfl, rfl⟩
      have hrun := intern_of_not_find hfind
      have hholds : ∀ {l : Ty} (u : Term l), (intern d b).2.Holds u ↔
          b.Holds u ∨ (⟨l, u⟩ : Σ k, Term k) = ⟨k, d.withId (b.lastId + 1)⟩ := by
        intro l u
        rw [hrun, ← b.fingerprint_withId (b.lastId + 1) d]
        exact holds_file _ _ _
      refine ⟨?_, fun l u hu => (hholds u).mpr (Or.inl hu), ?_, fun c' hc' hle => ?_⟩
      · rw [hrun]
        exact (hb.of_sameTable hsame).file hproper (hchildren.imp fun _ hu => hsame.holds_iff.mpr hu)
          fun t ht => hnew t (hsame.holds_iff.mp ht)
      · rw [hholds]
        rw [hrun]
        exact ⟨Or.inr rfl, by rw [Term.id_withId]⟩
      · have hheld : (intern d b).2.Holds (d.withId (b.lastId + 1)) := (hholds _).mpr (Or.inr rfl)
        have hfst : (intern d b).1 = d.withId (b.lastId + 1) := by rw [hrun]
        rw [hfst]
        exact intern_of_held hc' (hheld.mono hle) (Term.alike_withId_self _ _)

end Build

/-! ### Computations that may fail -/

section Failing

variable {ε σ α β : Type} {act : ExceptT ε (StateM σ) α} {next : α → ExceptT ε (StateM σ) β} {s s' : σ}

theorem bind_of_ok {a : α} (h : act s = (.ok a, s')) : (act >>= next) s = next a s' := by
  change (match act s with | (a, s') => (ExceptT.bindCont next a) s') = _
  rw [h]
  rfl

theorem bind_of_error {e : ε} (h : act s = (.error e, s')) : (act >>= next) s = (.error e, s') := by
  change (match act s with | (a, s') => (ExceptT.bindCont next a) s') = _
  rw [h]
  rfl

end Failing
end Pathwise
