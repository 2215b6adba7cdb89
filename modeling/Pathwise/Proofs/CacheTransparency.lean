import Pathwise.Proofs.CachedAnswers
import Pathwise.Proofs.Substitution

/-! Solving through a cache. An oracle decides formulas by their text and gives models of 64-bit words. A cache in front
of it, however it was used before, answers every formula as the oracle does: from a table in memory that may drop any
answer, from a store that may fail and may forget, or by asking. What the oracle answers to searches for counterexamples
is kept under keys of another kind and never gets in the way.

A question takes one of four ways (`QueryCache.Way`). What is kept, what is counted and what is answered are all read
off these. To count what reaches the oracle, the oracle is given a record of its questions. -/

namespace Pathwise

open Builder

variable {φ σ : Type}

/-! ### Models as they are kept -/

theorem Word.ofInt64_toInt64 {a : Word} (ha : a.width = 64) : ofInt64 a.toInt64 = a := by
  have hbits : (ofInt64 a.toInt64).bits 64 = a.bits 64 := by
    rw [bits_ofInt64, toInt64, ← toInt_bits ha]
    exact BitVec.ofInt_toInt
  have hwidth : (ofInt64 a.toInt64).width = 64 := rfl
  exact (eq_ofNat_bits hwidth hbits).trans (eq_ofNat_bits ha rfl).symm

/-- A model of 64-bit words is the same after it was kept. -/
theorem CachedAnswer.toModel_ofModel_of_width {r : Option Model}
    (hr : ∀ m, r = some m → ∀ e ∈ m.entries, e.2.width = 64) : (ofModel r).toModel = r := by
  cases r with
  | none => rfl
  | some m =>
      have hentries : (m.entries.map fun e => (e.1, Word.ofInt64 e.2.toInt64)) = m.entries := by
        conv_rhs => rw [← List.map_id m.entries]
        refine List.map_congr_left fun e he => ?_
        rw [Word.ofInt64_toInt64 (hr m rfl e he)]
        rfl
      rw [toModel_ofModel, hentries]

/-! ### What reaches the oracle -/

/-- The oracle with a record of the questions that it was asked, the latest first. -/
def Oracle.recording (o : Oracle σ) : Oracle (σ × List Query) where
  ask q := fun (s, reached) => do
    let (a, s) ← o.ask q s
    return (a, s, q :: reached)

/-- The store beside such a record, which it leaves alone. -/
def Store.beside (S : Store σ) : Store (σ × List Query) where
  get key := fun (s, reached) =>
    let (r, s) := S.get key s
    (r, s, reached)
  put key a := fun (s, reached) =>
    let (r, s) := S.put key a s
    (r, s, reached)

def Caching.beside (K : Caching φ σ) : Caching φ (σ × List Query) where
  digest := K.digest
  front := K.front
  store := K.store.beside

/-- Formulas are decided by their text, with models of 64-bit words. Whatever else the oracle is asked it may answer
as it likes, but it puts nothing into the store. -/
structure Oracle.SolvesByText (inner : Oracle σ) (kept : σ → String → CachedAnswer → Prop) (answer : String → Answer) :
    Prop where
  solve : ∀ (f : Cond) (s : σ) (b : Builder), b.Consistent → b.Holds f → (inner.solve f s b).1.1 = answer f.text
  width : ∀ text m, answer text = .ok (some m) → ∀ e ∈ m.entries, e.2.width = 64
  apart : ∀ (q : Query) (s : σ) (b : Builder) (key : String) (a : CachedAnswer),
    kept (inner.ask q s b).1.2 key a → kept s key a

namespace QueryCache

/-! ### One question -/

section

variable (K : Caching φ σ) (inner : Oracle σ) (q : Query) (b : Builder) (c : QueryCache φ) (s : σ)
  (reached : List Query)

/-- The ways in which a question is answered: from memory, from the store, by the oracle, which fails, or by the
oracle, whose answer is kept. -/
inductive Way : Answer × QueryCache φ × σ × List Query → Prop
  | memory {a : CachedAnswer} {front : φ}
      (hfront : K.front.get? (key K.digest q.kind (q.stated b).1) c.front = some (a, front)) :
      Way (.ok a.toModel, { c with front, hits := c.hits + 1 }, s, reached)
  | store {a : CachedAnswer} {s' : σ} (hget : K.store.get (key K.digest q.kind (q.stated b).1) s = (.ok a, s')) :
      Way (.ok a.toModel,
        { c with front := K.front.insert (key K.digest q.kind (q.stated b).1) a c.front, hits := c.hits + 1 }, s', reached)
  | failure {err : StoreError} {err' : OracleError} {s' s'' : σ} {b' : Builder}
      (hget : K.store.get (key K.digest q.kind (q.stated b).1) s = (.error err, s'))
      (hask : inner.ask q s' (q.stated b).2 = ((.error err', s''), b')) :
      Way (.error err', { c with misses := c.misses + 1 }, s'', q :: reached)
  | decision {err : StoreError} {r : Option Model} {s' s'' : σ} {b' : Builder}
      (hget : K.store.get (key K.digest q.kind (q.stated b).1) s = (.error err, s'))
      (hask : inner.ask q s' (q.stated b).2 = ((.ok r, s''), b')) :
      Way (.ok r,
        { c with
          front := K.front.insert (key K.digest q.kind (q.stated b).1) (.ofModel r) c.front
          misses := c.misses + 1 },
        (K.store.put (key K.digest q.kind (q.stated b).1) (.ofModel r) s'').2, q :: reached)

/-- A question takes one of the ways, and the record makes no difference to it. -/
theorem exists_way : ∃ out, Way K inner q b c s reached out ∧
    ((oracle K.beside inner.recording).ask q (c, s, reached) b).1 = out ∧
    ((oracle K inner).ask q (c, s) b).1 = (out.1, out.2.1, out.2.2.1) := by
  have hplain : (oracle K inner).ask q (c, s) b =
      lookup K (key K.digest q.kind (q.stated b).1) (inner.ask q) c s (q.stated b).2 := by
    cases q <;> rfl
  have hrecorded : (oracle K.beside inner.recording).ask q (c, s, reached) b =
      lookup K.beside (key K.digest q.kind (q.stated b).1) (inner.recording.ask q) c (s, reached) (q.stated b).2 := by
    cases q <;> rfl
  have hsame : K.beside.front = K.front := rfl
  rw [hplain, hrecorded]
  unfold lookup
  rw [hsame]
  rcases hfront : K.front.get? (key K.digest q.kind (q.stated b).1) c.front with _ | ⟨a, front⟩
  · rcases hget : K.store.get (key K.digest q.kind (q.stated b).1) s with ⟨err | a, s'⟩
    · have hbeside :
          K.beside.store.get (key K.digest q.kind (q.stated b).1) (s, reached) = (.error err, s', reached) := by
        simp only [Caching.beside, Store.beside, hget]
      simp only [hbeside, Build.bind_apply]
      rcases hask : inner.ask q s' (q.stated b).2 with ⟨⟨err' | r, s''⟩, b'⟩
      · simp only [Oracle.recording, Build.bind_apply, hask]
        exact ⟨_, .failure hget hask, rfl, rfl⟩
      · simp only [Oracle.recording, Build.bind_apply, hask]
        exact ⟨_, .decision hget hask, rfl, rfl⟩
    · have hbeside : K.beside.store.get (key K.digest q.kind (q.stated b).1) (s, reached) = (.ok a, s', reached) := by
        simp only [Caching.beside, Store.beside, hget]
      simp only [hbeside]
      exact ⟨_, .store hget, rfl, rfl⟩
  · exact ⟨_, .memory hfront, rfl, rfl⟩

end

/-! ### Uses -/

variable {K : Caching φ σ} {inner : Oracle σ} {held : φ → String → CachedAnswer → Prop}
  {kept : σ → String → CachedAnswer → Prop} {answer : String → Answer} {asked calls reached : List Query}
  {c : QueryCache φ} {s : σ} {q : Query} {b : Builder}

/-- How caches in front of one oracle and one store are used. The first list has all questions that were asked, the
second those that were put to the present cache, each with the latest first. Every question is about terms of some
builder. In between the store may lose answers, and a new cache may take the place of the old one. -/
inductive Used (K : Caching φ σ) (inner : Oracle σ) (kept : σ → String → CachedAnswer → Prop) :
    List Query → List Query → QueryCache φ × σ × List Query → Prop
  | start {size : Int} {c : QueryCache φ} {s : σ} (hc : empty? K.front size = .ok c) (hempty : ∀ key a, ¬kept s key a) :
      Used K inner kept [] [] (c, s, [])
  | ask {asked calls : List Query} {t : QueryCache φ × σ × List Query} (h : Used K inner kept asked calls t) {q : Query}
      {b : Builder} (hb : b.Consistent) (hq : q.Made b) :
      Used K inner kept (q :: asked) (q :: calls) ((oracle K.beside inner.recording).ask q t b).1.2
  | lapse {asked calls reached : List Query} {c : QueryCache φ} {s s' : σ}
      (h : Used K inner kept asked calls (c, s, reached)) (hkept : ∀ key a, kept s' key a → kept s key a) :
      Used K inner kept asked calls (c, s', reached)
  | renew {asked calls reached : List Query} {c c' : QueryCache φ} {s : σ} {size : Int}
      (h : Used K inner kept asked calls (c, s, reached)) (hc : empty? K.front size = .ok c') :
      Used K inner kept asked [] (c', s, [])

/-- The cache and the store are those without a record. -/
theorem Used.exists_ask (h : Used K inner kept asked calls (c, s, reached)) (hb : b.Consistent) (hq : q.Made b) :
    ∃ reached', Used K inner kept (q :: asked) (q :: calls)
      (((oracle K inner).ask q (c, s) b).1.2.1, ((oracle K inner).ask q (c, s) b).1.2.2, reached') := by
  obtain ⟨out, -, hout, hplain⟩ := exists_way K inner q b c s reached
  refine ⟨out.2.2.2, ?_⟩
  rw [hplain]
  have hasked := h.ask hb hq
  rwa [hout] at hasked

/-- What is kept under a key is what the oracle decided about a formula that has the key, unless the key is one for
searches. -/
def Decided (digest : String → UInt64) (answer : String → Answer) (asked : List Query) (key : String)
    (a : CachedAnswer) : Prop :=
  (∃ f r, .solve f ∈ asked ∧ key = QueryCache.key digest "solve" f ∧ answer f.text = .ok r ∧ a = .ofModel r) ∨
    ∃ f, key = QueryCache.key digest "cex" f

/-- What holds of a cache after any uses: all that it can find was decided, and its counts are right. -/
structure Faithful (digest : String → UInt64) (held : φ → String → CachedAnswer → Prop)
    (kept : σ → String → CachedAnswer → Prop) (answer : String → Answer) (asked calls : List Query)
    (c : QueryCache φ) (s : σ) (reached : List Query) : Prop where
  decided : Holding held kept (Decided digest answer asked) c s
  counted : c.hits + c.misses = calls.length
  missed : c.misses = reached.length
  among : reached.Sublist calls

theorem Decided.mono {digest : String → UInt64} {key : String} {a : CachedAnswer}
    (h : Decided digest answer asked key a) (q : Query) : Decided digest answer (q :: asked) key a := by
  rcases h with ⟨f, r, hf, h⟩ | h
  · exact Or.inl ⟨f, r, List.mem_cons_of_mem q hf, h⟩
  · exact Or.inr h

/-- What the oracle decides about a question may be kept under its key. -/
theorem decided_of_ask (hinner : inner.SolvesByText kept answer) (hb : b.Consistent) (hq : q.Made b) {r : Option Model}
    {s' : σ} {b' : Builder} (hask : inner.ask q s (q.stated b).2 = ((.ok r, s'), b')) :
    Decided K.digest answer (q :: asked) (key K.digest q.kind (q.stated b).1) (.ofModel r) := by
  cases q with
  | solve f =>
      have hsolve : (inner.ask (.solve f) s b).1.1 = answer f.text := hinner.solve f s b hb hq
      refine Or.inl ⟨f, r, List.mem_cons_self, rfl, ?_, rfl⟩
      rw [← hsolve]
      exact congrArg (·.1.1) hask
  | counterexample asserts query => exact Or.inr ⟨_, rfl⟩

section

variable {P : String → CachedAnswer → Prop} {s' : σ}

/-- Reading from the store makes nothing new appear in it, and neither does asking the oracle. -/
theorem Holding.get (hS : K.store.Keeps kept) (h : Holding held kept P c s) {key : String}
    {r : Except StoreError CachedAnswer} (hget : K.store.get key s = (r, s')) : Holding held kept P c s' := by
  refine h.change fun key' a ha => h key' a (Or.inr (hS.get key s key' a ?_))
  rwa [hget]

theorem Holding.ask (hinner : inner.SolvesByText kept answer) (h : Holding held kept P c s) {r : Answer} {b' : Builder}
    (hask : inner.ask q s b = ((r, s'), b')) : Holding held kept P c s' := by
  refine h.change fun key a ha => h key a (Or.inr (hinner.apart q s b key a ?_))
  rwa [hask]

end

theorem Faithful.ask (hF : K.front.Keeps held) (hS : K.store.Keeps kept) (hinner : inner.SolvesByText kept answer)
    (h : Faithful K.digest held kept answer asked calls c s reached) (hb : b.Consistent) (hq : q.Made b)
    {out : Answer × QueryCache φ × σ × List Query} (hway : Way K inner q b c s reached out) :
    Faithful K.digest held kept answer (q :: asked) (q :: calls) out.2.1 out.2.2.1 out.2.2.2 := by
  have hdecided : Holding held kept (Decided K.digest answer (q :: asked)) c s := fun key a ha =>
    (h.decided key a ha).mono q
  have hhit : c.hits + 1 + c.misses = (q :: calls).length := by
    rw [List.length_cons, ← h.counted]
    omega
  have hmiss : c.hits + (c.misses + 1) = (q :: calls).length := by
    rw [List.length_cons, ← h.counted]
    omega
  cases hway with
  | memory hfront => exact ⟨(hdecided.hit hF hfront _ _).2, hhit, h.missed, h.among.cons q⟩
  | @store a s' hget =>
      have ha := hdecided _ a (Or.inr (hS.found _ s a (congrArg Prod.fst hget)))
      exact ⟨(hdecided.get hS hget).insert hF ha _ _, hhit, h.missed, h.among.cons q⟩
  | failure hget hask =>
      exact ⟨(hdecided.get hS hget).ask hinner hask, hmiss, congrArg (· + 1) h.missed, h.among.cons_cons q⟩
  | @decision _ r _ s'' _ hget hask =>
      have hr : Decided K.digest answer (q :: asked) _ (.ofModel r) := decided_of_ask hinner hb hq hask
      have hasked := (hdecided.get hS hget).ask hinner hask
      refine ⟨(hasked.change fun key a ha => ?_).insert hF hr _ _, hmiss, congrArg (· + 1) h.missed,
        h.among.cons_cons q⟩
      rcases hS.put _ _ s'' key a ha with ⟨rfl, rfl⟩ | ha
      · exact hr
      · exact hasked key a (Or.inr ha)

/-- A new cache finds only what is in the store. -/
theorem faithful_of_empty (hF : K.front.Keeps held) {size : Int} (hc : empty? K.front size = .ok c)
    (hkept : ∀ key a, kept s key a → Decided K.digest answer asked key a) :
    Faithful K.digest held kept answer asked [] c s [] := by
  have hcounts : c.hits = 0 ∧ c.misses = 0 := by
    unfold empty? at hc
    split at hc
    · cases hc
    · cases hc
      exact ⟨rfl, rfl⟩
  refine ⟨fun key a ha => hkept key a (ha.resolve_left (hF.empty hc key a)), ?_, hcounts.2, List.Sublist.slnil⟩
  rw [hcounts.1, hcounts.2]
  rfl

theorem Used.faithful (hF : K.front.Keeps held) (hS : K.store.Keeps kept) (hinner : inner.SolvesByText kept answer)
    {t : QueryCache φ × σ × List Query} (h : Used K inner kept asked calls t) : Faithful K.digest held kept answer asked calls t.1 t.2.1 t.2.2 := by
  induction h with
  | start hc hempty => exact faithful_of_empty hF hc fun key a ha => absurd ha (hempty key a)
  | @ask _ _ t _ q b hb hq ih =>
      obtain ⟨out, hway, hout, -⟩ := exists_way K inner q b t.1 t.2.1 t.2.2
      rw [hout]
      exact ih.ask hF hS hinner hb hq hway
  | lapse h hkept ih =>
      exact { ih with decided := ih.decided.change fun key a ha => ih.decided key a (Or.inr (hkept key a ha)) }
  | renew h hc ih => exact faithful_of_empty hF hc fun key a ha => ih.decided key a (Or.inr ha)

/-! ### Answers -/

/-- What is found under the key of a formula is what the oracle answers to it. -/
theorem Decided.toModel_eq (hinner : inner.SolvesByText kept answer) {f : Cond} {a : CachedAnswer}
    (h : Decided K.digest answer asked (key K.digest "solve" f) a)
    (hdigest : ∀ f', .solve f' ∈ asked → K.digest f'.text = K.digest f.text → f'.text = f.text) :
    .ok a.toModel = answer f.text := by
  rcases h with ⟨f', r, hf', hkey, hr, rfl⟩ | ⟨f', hkey⟩
  · obtain ⟨-, hsame⟩ := @key_inj K.digest (.solve f) (.solve f') _ _ hkey
    rw [hdigest f' hf' hsame.symm] at hr
    rw [hr, CachedAnswer.toModel_ofModel_of_width]
    rintro m rfl
    exact hinner.width _ m hr
  · obtain ⟨hkind, -⟩ := @key_inj K.digest (.solve f) (.counterexample [] ⟨f', true, f'⟩) _ _ hkey
    exact absurd (show "solve" = "cex" from hkind) (by decide)

theorem Faithful.solve (hF : K.front.Keeps held) (hS : K.store.Keeps kept) (hinner : inner.SolvesByText kept answer)
    (h : Faithful K.digest held kept answer asked calls c s reached) {f : Cond} (hb : b.Consistent) (hf : b.Holds f)
    (hdigest : ∀ f', .solve f' ∈ asked → K.digest f'.text = K.digest f.text → f'.text = f.text)
    {out : Answer × QueryCache φ × σ × List Query} (hway : Way K inner (.solve f) b c s reached out) :
    out.1 = answer f.text := by
  have hsolve : ∀ s', (inner.ask (.solve f) s' b).1.1 = answer f.text := fun s' => hinner.solve f s' b hb hf
  cases hway with
  | memory hfront => exact (h.decided.hit hF hfront 0 0).1.toModel_eq hinner hdigest
  | store hget => exact (h.decided _ _ (Or.inr (hS.found _ s _ (congrArg Prod.fst hget)))).toModel_eq hinner hdigest
  | failure hget hask => exact (congrArg (·.1.1) hask).symm.trans (hsolve _)
  | decision hget hask => exact (congrArg (·.1.1) hask).symm.trans (hsolve _)

/-- Where there is no answer nothing is kept. -/
theorem Way.of_error (hS : K.store.Keeps kept) (hinner : inner.SolvesByText kept answer)
    {out : Answer × QueryCache φ × σ × List Query} (hway : Way K inner q b c s reached out) {err : OracleError}
    (herr : out.1 = .error err) : out.2.1.front = c.front ∧ ∀ key a, kept out.2.2.1 key a → kept s key a := by
  cases hway with
  | memory hfront => cases herr
  | store hget => cases herr
  | @failure _ _ s' s'' _ hget hask =>
      refine ⟨rfl, fun key a ha => ?_⟩
      have hread : kept s' key a := hinner.apart q s' _ key a (by rwa [hask])
      exact hS.get _ s key a (by rwa [hget])
  | decision hget hask => cases herr

end QueryCache

/-- Let an oracle decide formulas by their text, with models of 64-bit words, and let a table in memory and a store give
back only what was put into them under the key. However a cache in front of them was used before, also by earlier caches
over the same store, it has counted as many hits and misses as there were calls, and a miss for every call that reached
the oracle. It answers every formula whose text shares its digest with no other text that was solved as the oracle
itself does, and a call that fails leaves nothing behind in memory and in the store. -/
theorem cached_solving_is_transparent {K : Caching φ σ} {inner : Oracle σ}
    {held : φ → String → CachedAnswer → Prop} {kept : σ → String → CachedAnswer → Prop} {answer : String → Answer}
    (hF : K.front.Keeps held) (hS : K.store.Keeps kept) (hinner : inner.SolvesByText kept answer)
    {asked calls reached : List Query} {c : QueryCache φ} {s : σ}
    (hused : QueryCache.Used K inner kept asked calls (c, s, reached)) :
    c.hits + c.misses = calls.length ∧ c.misses = reached.length ∧ reached.Sublist calls ∧
      (∀ (f : Cond) (b : Builder), b.Consistent → b.Holds f →
        (∀ f', .solve f' ∈ asked → K.digest f'.text = K.digest f.text → f'.text = f.text) →
        ((QueryCache.oracle K inner).solve f (c, s) b).1.1 = (inner.solve f s b).1.1) ∧
      ∀ (q : Query) (b : Builder) (err : OracleError) (c' : QueryCache φ) (s' : σ),
        ((QueryCache.oracle K inner).ask q (c, s) b).1 = (.error err, c', s') →
        c'.front = c.front ∧ ∀ key a, kept s' key a → kept s key a := by
  have hfaithful := hused.faithful hF hS hinner
  refine ⟨hfaithful.counted, hfaithful.missed, hfaithful.among, fun f b hb hf hdigest => ?_,
    fun q b err c' s' hask => ?_⟩
  · obtain ⟨out, hway, -, hplain⟩ := QueryCache.exists_way K inner (.solve f) b c s reached
    rw [hinner.solve f s b hb hf, ← hfaithful.solve hF hS hinner hb hf hdigest hway]
    exact congrArg Prod.fst hplain
  · obtain ⟨⟨r, c₁, s₁, reached₁⟩, hway, -, hplain⟩ := QueryCache.exists_way K inner q b c s reached
    cases hask.symm.trans hplain
    exact hway.of_error hS hinner rfl

/-- Decides whether a symbol can be negative, and searches for nothing. -/
def Oracle.ofSigns (σ : Type) : Oracle σ where
  ask q s :=
    match q with
    | .solve f => return (if f.text = "x s< 0x0" then .ok (some ⟨[("x", .ofInt64 (-1))]⟩) else .ok none, s)
    | .counterexample .. => return (.error .unknown, s)

theorem Oracle.ofSigns_solvesByText (kept : σ → String → CachedAnswer → Prop) :
    (ofSigns σ).SolvesByText kept
      fun text => if text = "x s< 0x0" then .ok (some ⟨[("x", .ofInt64 (-1))]⟩) else .ok none where
  solve _ _ _ _ _ := rfl
  width text m h := by
    split_ifs at h
    · cases h
      exact List.forall_mem_singleton.mpr rfl
    · cases h
  apart q s b key a h := by cases q <;> exact h

/-- A second formula drives the first one out of memory, which has room for one answer. The store still has it. -/
theorem cached_solving_is_transparent_of_eviction :
    let inner := Oracle.ofSigns (StoreHandle × Shelf)
    let o := QueryCache.oracle StoreHandle.caching inner
    let x := (Predicate.negatives {}).1.1.cond
    let y := (Predicate.negatives {}).1.2.cond
    let b := (Predicate.negatives {}).2
    let first := (o.solve x ({ front := { capacity := 1 } }, .table "answers", {}) b).1.2
    let second := (o.solve y first b).1.2
    second.1.front.find? (QueryCache.key Text.digest "solve" x) = none ∧ second.1.hits + second.1.misses = 2 ∧
      (o.solve x second b).1.1 = .ok (some ⟨[("x", .ofInt64 (-1))]⟩) := by
  intro inner o x y b first second
  obtain ⟨⟨hx, -⟩, hy, -⟩ := Predicate.negatives_runs.post
  have hb := Predicate.negatives_runs.consistent
  have hroom : QueryCache.empty? StoreHandle.caching.front 1 = .ok { front := { capacity := 1 } } := rfl
  have hstart : QueryCache.Used StoreHandle.caching inner StoreHandle.Kept [] []
      ({ front := { capacity := 1 } }, (.table "answers", {}), []) := .start hroom nofun
  obtain ⟨_, hfirst⟩ := hstart.exists_ask (q := .solve x) hb hx.1
  obtain ⟨_, hsecond⟩ := hfirst.exists_ask (q := .solve y) hb hy.1
  obtain ⟨hcounted, -, -, hsolve, -⟩ := cached_solving_is_transparent Lru.front_keeps
    StoreHandle.store_keeps
    (Oracle.ofSigns_solvesByText _) hsecond
  have hdigest : ∀ f', .solve f' ∈ [Query.solve y, .solve x] → Text.digest f'.text = Text.digest x.text →
      f'.text = x.text := by
    intro f' hf' hsame
    rcases List.mem_cons.mp hf' with heq | hmem
    · cases heq
      exact absurd hsame (by decide +kernel)
    · cases List.mem_singleton.mp hmem
      rfl
  refine ⟨by decide +kernel, hcounted, (hsolve x b hb hx.1 hdigest).trans ?_⟩
  have htext : x.text = "x s< 0x0" := by decide +kernel
  exact if_pos htext

end Pathwise
