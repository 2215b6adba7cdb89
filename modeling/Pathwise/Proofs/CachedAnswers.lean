import Pathwise.Proofs.AnswerStores
import Pathwise.Proofs.PathCoverage
import Pathwise.Proofs.SlicedModels
import Pathwise.Text.Digest

/-! Answers from a cache. The key of a search for a counterexample is made from the conjunction of its asserts and
the opposite of its query, and does not say which of the conjuncts was the query. So what the cache answers is
valid for some search with the same conjunction, and that may be another one: a refusal can be relied on, but a
model only for inputs that satisfy the asserts of that other search as well. -/

namespace Pathwise

open Builder

variable {φ σ : Type}

/-! ### Questions -/

namespace Query

/-- The two kinds of questions are kept apart. -/
def kind : Query → String
  | .solve _ => "solve"
  | .counterexample .. => "cex"

/-- The formula that a question is kept under. -/
def stated : Query → Build Cond
  | .solve p => return p
  | .counterexample asserts query => Build.all (asserts.map Predicate.expr ++ [query.flip.expr])

/-- The answer may be relied on, if the question was a search for a counterexample. -/
def Valid (a : Answer) : Query → Prop
  | .solve _ => True
  | .counterexample asserts query => a.Valid asserts query

theorem valid_error (q : Query) (err : OracleError) : q.Valid (.error err) := by
  cases q with
  | solve p => trivial
  | counterexample asserts query => exact ⟨nofun, nofun⟩

theorem stated_runs {b : Builder} (hb : b.Consistent) {q : Query} (hq : q.Made b) :
    Build.Runs q.stated b fun f _ => ∀ ρ, f.holds ρ = true ↔ q.HoldsFor ρ := by
  cases q with
  | solve p => exact Build.Runs.pure hb fun ρ => Iff.rfl
  | counterexample asserts query =>
      refine (Request.all_runs hb (Made.held hq)).imp fun f c _ _ hf ρ => ?_
      rw [hf.holds, List.all_eq_true, Made.holdsFor_iff hq]

end Query

/-- The key tells the kind of the question and the digest of its formula. -/
theorem QueryCache.key_inj {digest : String → UInt64} {q q' : Query} {f f' : Cond}
    (h : key digest q.kind f = key digest q'.kind f') : q.kind = q'.kind ∧ digest f.text = digest f'.text := by
  have hdigest : ∀ {kind : String}, key digest kind f = key digest kind f' → digest f.text = digest f'.text := by
    intro kind h
    exact UInt64.toNat_inj.mp (Text.hexPadded_injective ((String.append_right_inj _).mp h))
  have hhead := congrArg (·.toList.head?) h
  cases q <;> cases q'
  · exact ⟨rfl, hdigest h⟩
  · exact absurd hhead (by simp [key, Query.kind])
  · exact absurd hhead (by simp [key, Query.kind])
  · exact ⟨rfl, hdigest h⟩

/-! ### The cache -/

namespace CachedAnswer

/-- An answer may be relied on after it was kept just as before. -/
theorem valid_stored {r : Option Model} {q : Query} : q.Valid (.ok (ofModel r).toModel) ↔ q.Valid (.ok r) := by
  cases q with
  | solve p => exact Iff.rfl
  | counterexample asserts query =>
      cases r with
      | none => exact Iff.rfl
      | some m =>
          have himp : ∀ {m m' : Model}, (∀ inputs : InputMap, inputs.applyModel m' = inputs.applyModel m) →
              Answer.Valid (.ok (some m)) asserts query → Answer.Valid (.ok (some m')) asserts query := by
            intro m m' hsame h
            refine ⟨nofun, ?_⟩
            rintro _ ⟨⟩ inputs hsymbols hholds
            rw [hsame inputs]
            exact h.sat m rfl inputs hsymbols hholds
          rw [toModel_ofModel]
          exact ⟨himp fun inputs => (applyModel_stored m inputs).symm, himp (applyModel_stored m)⟩

end CachedAnswer

namespace QueryCache

variable {good : σ → Prop} {held : φ → String → CachedAnswer → Prop} {kept : σ → String → CachedAnswer → Prop}
  {K : Caching φ σ} {inner : Oracle σ} {b : Builder}

/-- What a cache relies on: the table and the store keep what is written to them only. The oracle, in every good state,
answers searches validly, puts nothing into the store, and does to the builder what building terms does. Using either
leads from good states to good states. -/
structure Backing (K : Caching φ σ) (inner : Oracle σ) (good : σ → Prop) (held : φ → String → CachedAnswer → Prop)
    (kept : σ → String → CachedAnswer → Prop) : Prop where
  front : K.front.Keeps held
  store : K.store.Keeps kept
  get : ∀ key s, good s → good (K.store.get key s).2
  put : ∀ key a s, good s → good (K.store.put key a s).2
  ask : ∀ (q : Query) (s : σ) (b : Builder), good s → b.Consistent → q.Made b →
    let out := inner.ask q s b
    q.Valid out.1.1 ∧ good out.1.2 ∧ (∀ key a, kept out.1.2 key a → kept s key a) ∧ out.2.Consistent ∧ b ≤ out.2

/-- Whatever is found under a key, in memory or in the store, has the property. -/
def Holding (held : φ → String → CachedAnswer → Prop) (kept : σ → String → CachedAnswer → Prop)
    (P : String → CachedAnswer → Prop) (c : QueryCache φ) (s : σ) : Prop :=
  ∀ key a, held c.front key a ∨ kept s key a → P key a

/-- What a look-up comes to: all that is found goes on having the property, and so has what the answer is. -/
structure Looked (good : σ → Prop) (held : φ → String → CachedAnswer → Prop)
    (kept : σ → String → CachedAnswer → Prop) (P : String → CachedAnswer → Prop) (key : String) (b : Builder)
    (out : (Answer × QueryCache φ × σ) × Builder) : Prop where
  good : good out.1.2.2
  holding : Holding held kept P out.1.2.1 out.1.2.2
  consistent : out.2.Consistent
  grows : b ≤ out.2
  answer : ∀ r, out.1.1 = .ok r → ∃ a, P key a ∧ (r = a.toModel ∨ a = .ofModel r)

section

variable {P : String → CachedAnswer → Prop} {c : QueryCache φ} {s : σ} {key : String} {a : CachedAnswer}

theorem Holding.insert {F : Front φ} (hF : F.Keeps held) (h : Holding held kept P c s) (ha : P key a)
    (hits misses : Nat) : Holding held kept P ⟨F.insert key a c.front, hits, misses⟩ s := by
  rintro key' a' (hheld | hkept)
  · rcases hF.insert key a c.front key' a' hheld with ⟨rfl, rfl⟩ | hheld
    · exact ha
    · exact h key' a' (Or.inl hheld)
  · exact h key' a' (Or.inr hkept)

/-- Reading from memory makes nothing new appear in it. -/
theorem Holding.hit {F : Front φ} (hF : F.Keeps held) (h : Holding held kept P c s) {front : φ}
    (hget : F.get? key c.front = some (a, front)) (hits misses : Nat) :
    P key a ∧ Holding held kept P ⟨front, hits, misses⟩ s :=
  ⟨h key a (Or.inl (hF.found key c.front a front hget)), fun key' a' hfound =>
    h key' a' (hfound.imp_left (hF.get key c.front a front hget key' a'))⟩

theorem Holding.change (h : Holding held kept P c s) {s' : σ} (hkept : ∀ key a, kept s' key a → P key a) :
    Holding held kept P c s' := fun key a hfound => hfound.elim (fun hheld => h key a (Or.inl hheld)) (hkept key a)

theorem lookup_spec (hK : Backing K inner good held kept) (h : Holding held kept P c s) (hs : good s)
    (hb : b.Consistent) {ask : σ → Build (Answer × σ)} (hask : ∀ s, good s → let out := ask s b
      good out.1.2 ∧ (∀ key a, kept out.1.2 key a → kept s key a) ∧ out.2.Consistent ∧ b ≤ out.2 ∧
        ∀ r, out.1.1 = .ok r → P key (.ofModel r)) :
    Looked good held kept P key b (lookup K key ask c s b) := by
  unfold lookup
  rcases hfront : K.front.get? key c.front with _ | ⟨a, front⟩
  · have hgood := hK.get key s hs
    have hkept : ∀ key' a, kept (K.store.get key s).2 key' a → P key' a := fun key' a ha =>
      h key' a (Or.inr (hK.store.get key s key' a ha))
    rcases hget : K.store.get key s with ⟨err | a, s₁⟩
    · -- it is nowhere, so the oracle is asked, and its answer goes to the store and to memory
      rw [hget] at hgood hkept
      obtain ⟨hgood₂, hkept₂, hconsistent, hle, hanswer⟩ := hask s₁ hgood
      dsimp only
      rw [Build.bind_apply]
      rcases hrun : ask s₁ b with ⟨⟨err | r, s₂⟩, b₂⟩
      · rw [hrun] at hgood₂ hkept₂ hconsistent hle
        exact ⟨hgood₂, h.change fun key' a ha => hkept key' a (hkept₂ key' a ha), hconsistent, hle, nofun⟩
      · rw [hrun] at hgood₂ hkept₂ hconsistent hle hanswer
        have hr := hanswer r rfl
        refine ⟨hK.put key _ s₂ hgood₂, (h.change fun key' a ha => ?_).insert hK.front hr _ _, hconsistent, hle, ?_⟩
        · rcases hK.store.put key _ s₂ key' a ha with ⟨rfl, rfl⟩ | ha
          · exact hr
          · exact hkept key' a (hkept₂ key' a ha)
        · rintro _ ⟨⟩
          exact ⟨_, hr, Or.inr rfl⟩
    · have ha : P key a := h key a (Or.inr (hK.store.found key s a (congrArg Prod.fst hget)))
      rw [hget] at hgood hkept
      refine ⟨hgood, (h.change hkept).insert hK.front ha _ _, hb, le_rfl, ?_⟩
      rintro _ ⟨⟩
      exact ⟨a, ha, Or.inl rfl⟩
  · -- in memory
    obtain ⟨ha, hholding⟩ := h.hit hK.front hfront (c.hits + 1) c.misses
    refine ⟨hs, hholding, hb, le_rfl, ?_⟩
    rintro _ ⟨⟩
    exact ⟨a, ha, Or.inl rfl⟩

end

/-! ### Asking again and again -/

/-- The questions that were asked, each with the formula that it was kept under, the latest first. Between two
questions the builder may grow. -/
inductive Asked (K : Caching φ σ) (inner : Oracle σ) (good : σ → Prop) (kept : σ → String → CachedAnswer → Prop) :
    List (Query × Cond) → QueryCache φ × σ → Builder → Prop
  | start {size : Int} {c : QueryCache φ} {s : σ} {b : Builder} (hc : empty? K.front size = .ok c) (hs : good s)
      (hempty : ∀ key a, ¬kept s key a) (hb : b.Consistent) : Asked K inner good kept [] (c, s) b
  | grow {log : List (Query × Cond)} {t : QueryCache φ × σ} {b b' : Builder} (h : Asked K inner good kept log t b)
      (hb' : b'.Consistent) (hle : b ≤ b') : Asked K inner good kept log t b'
  | ask {log : List (Query × Cond)} {t : QueryCache φ × σ} {b : Builder} (h : Asked K inner good kept log t b)
      {q : Query} (hq : q.Made b) :
      Asked K inner good kept ((q, (q.stated b).1) :: log) ((oracle K inner).ask q t b).1.2
        ((oracle K inner).ask q t b).2

/-- The answer was given, validly, to a question that has the key. -/
def Stems (digest : String → UInt64) (log : List (Query × Cond)) (key : String) (a : CachedAnswer) : Prop :=
  ∃ p ∈ log, key = QueryCache.key digest p.1.kind p.2 ∧ p.1.Valid (.ok a.toModel)

theorem Stems.mono {digest : String → UInt64} {log : List (Query × Cond)} {key : String} {a : CachedAnswer}
    (h : Stems digest log key a) (p : Query × Cond) : Stems digest (p :: log) key a := by
  obtain ⟨p', hp', h⟩ := h
  exact ⟨p', List.mem_cons_of_mem _ hp', h⟩

/-- What holds after any questions: all that is kept stems from them. -/
structure Traced (digest : String → UInt64) (good : σ → Prop) (held : φ → String → CachedAnswer → Prop)
    (kept : σ → String → CachedAnswer → Prop) (log : List (Query × Cond)) (t : QueryCache φ × σ) (b : Builder) :
    Prop where
  good : good t.2
  consistent : b.Consistent
  holding : Holding held kept (Stems digest log) t.1 t.2
  states : ∀ p ∈ log, ∀ ρ, p.2.holds ρ = true ↔ p.1.HoldsFor ρ

variable {log : List (Query × Cond)} {t : QueryCache φ × σ} {q : Query}

theorem ask_looked (hK : Backing K inner good held kept) (h : Traced K.digest good held kept log t b) (hq : q.Made b) :
    Looked good held kept (Stems K.digest ((q, (q.stated b).1) :: log)) (key K.digest q.kind (q.stated b).1) b
      ((oracle K inner).ask q t b) := by
  have hstated := Query.stated_runs h.consistent hq
  have hask : (oracle K inner).ask q t b =
      lookup K (key K.digest q.kind (q.stated b).1) (inner.ask q) t.1 t.2 (q.stated b).2 := by
    cases q <;> rfl
  have hholding : Holding held kept (Stems K.digest ((q, (q.stated b).1) :: log)) t.1 t.2 := fun key a ha =>
    (h.holding key a ha).mono _
  have hlooked : Looked good held kept (Stems K.digest ((q, (q.stated b).1) :: log))
      (key K.digest q.kind (q.stated b).1) (q.stated b).2 ((oracle K inner).ask q t b) := by
    rw [hask]
    refine lookup_spec hK hholding h.good hstated.consistent fun s hs => ?_
    obtain ⟨hvalid, hgood, hkept, hconsistent, hle⟩ := hK.ask q s _ hs hstated.consistent (hq.mono hstated.grows)
    refine ⟨hgood, hkept, hconsistent, hle, fun r hr => ?_⟩
    rw [hr] at hvalid
    exact ⟨_, List.mem_cons_self, rfl, CachedAnswer.valid_stored.mpr hvalid⟩
  exact { hlooked with grows := hstated.grows.trans hlooked.grows }

theorem Traced.ask (hK : Backing K inner good held kept) (h : Traced K.digest good held kept log t b) (hq : q.Made b) :
    Traced K.digest good held kept ((q, (q.stated b).1) :: log) ((oracle K inner).ask q t b).1.2
      ((oracle K inner).ask q t b).2 := by
  have hlooked := ask_looked hK h hq
  exact ⟨hlooked.good, hlooked.consistent, hlooked.holding,
    List.forall_mem_cons.mpr ⟨(Query.stated_runs h.consistent hq).post, h.states⟩⟩

theorem Asked.traced (hK : Backing K inner good held kept) (h : Asked K inner good kept log t b) :
    Traced K.digest good held kept log t b := by
  induction h with
  | start hc hs hempty hb =>
      refine ⟨hs, hb, ?_, nofun⟩
      rintro key a (hheld | hkept)
      · exact absurd hheld (hK.front.empty hc key a)
      · exact absurd hkept (hempty key a)
  | grow h hb' hle ih => exact { ih with consistent := hb' }
  | ask h hq ih => exact ih.ask hK hq

/-- Every answer is a valid one to some question with the same key. -/
theorem Traced.answer (hK : Backing K inner good held kept) (h : Traced K.digest good held kept log t b)
    (hq : q.Made b) :
    ∃ p ∈ (q, (q.stated b).1) :: log, key K.digest q.kind (q.stated b).1 = key K.digest p.1.kind p.2 ∧
      p.1.Valid ((oracle K inner).ask q t b).1.1 := by
  rcases hanswer : ((oracle K inner).ask q t b).1.1 with err | r
  · exact ⟨_, List.mem_cons_self, rfl, q.valid_error err⟩
  · obtain ⟨a, ⟨p, hp, hkey, hvalid⟩, rfl | rfl⟩ := (ask_looked hK h hq).answer r hanswer
    · exact ⟨p, hp, hkey, hvalid⟩
    · exact ⟨p, hp, hkey, CachedAnswer.valid_stored.mp hvalid⟩

end QueryCache

/-- Let a cache have a table in memory and a store that give back what was put into them only, and an oracle behind it
whose answers to searches are valid. However it was used before, each of its answers to a search was given for a search
with the same formula. So a refusal can be relied on, and a model for all inputs that satisfy the asserts of the search
that it was given for: it leads to inputs that satisfy the asserts and not the query of the search that was asked. -/
theorem cached_answers_valid_for_asserts_of_same_formula {K : Caching φ σ} {inner : Oracle σ} {good : σ → Prop}
    {held : φ → String → CachedAnswer → Prop} {kept : σ → String → CachedAnswer → Prop}
    (hK : QueryCache.Backing K inner good held kept) {log : List (Query × Cond)} {t : QueryCache φ × σ} {b : Builder}
    (hasked : QueryCache.Asked K inner good kept log t b) {asserts : Trace} {query : Predicate}
    (hmade : ∀ d ∈ query :: asserts, d.Made b) {f : Cond}
    (hf : (Query.stated (.counterexample asserts query) b).1 = f)
    (hdigest : ∀ p ∈ log, K.digest p.2.text = K.digest f.text → p.2.text = f.text)
    (htext : ∀ p ∈ log, p.2.text = f.text → ∀ ρ, p.2.holds ρ = f.holds ρ) :
    let answer := ((QueryCache.oracle K inner).findCounterexample asserts query t b).1.1
    ∃ asserts' query' f', (.counterexample asserts' query', f') ∈ (.counterexample asserts query, f) :: log ∧
      f'.text = f.text ∧
      (answer = .ok none → ∀ ρ, asserts.HoldsFor ρ → ¬query.flip.HoldsFor ρ) ∧
      ∀ m, answer = .ok (some m) → ∀ inputs : InputMap,
        (∀ d ∈ query' :: asserts', d.cond.free ⊆ inputs.symbols) → Trace.HoldsFor inputs.valuation asserts' →
          asserts.HoldsFor (inputs.applyModel m).valuation ∧
            query.flip.HoldsFor (inputs.applyModel m).valuation := by
  intro answer
  have htraced := hasked.traced hK
  have hq : Query.Made b (.counterexample asserts query) := hmade
  have hstates := (Query.stated_runs htraced.consistent hq).post
  obtain ⟨⟨q', f'⟩, hmem, hkey, hvalid⟩ := htraced.answer hK hq
  obtain ⟨hkind, hsame⟩ := QueryCache.key_inj hkey
  rw [hf] at hstates hmem hsame
  cases q' with
  | solve p => exact absurd (show "cex" = "solve" from hkind) (by decide)
  | counterexample asserts' query' =>
      have hmeans : f'.text = f.text ∧ ∀ ρ, (asserts.HoldsFor ρ ∧ query.flip.HoldsFor ρ ↔
          Trace.HoldsFor ρ asserts' ∧ query'.flip.HoldsFor ρ) := by
        rcases List.mem_cons.mp hmem with heq | hlog
        · cases heq
          exact ⟨rfl, fun ρ => Iff.rfl⟩
        · have hequal := hdigest _ hlog hsame.symm
          refine ⟨hequal, fun ρ => (hstates ρ).symm.trans ?_⟩
          rw [← htext _ hlog hequal]
          exact htraced.states _ hlog ρ
      refine ⟨asserts', query', f', hmem, hmeans.1, fun hnone ρ hasserts hquery => ?_,
        fun m hm inputs hsymbols hholds => ?_⟩
      · obtain ⟨hasserts', hquery'⟩ := (hmeans.2 ρ).mp ⟨hasserts, hquery⟩
        exact hvalid.unsat hnone ρ hasserts' hquery'
      · exact (hmeans.2 _).mpr (hvalid.sat m hm inputs hsymbols hholds)

/-! ### Two searches with one formula -/

/-- Makes a symbol negative if the asserts say nothing about it, and leaves everything else open. -/
def Query.negativeAnswer : Query → Answer
  | .counterexample asserts query =>
    match query.cond.negative? with
    | some name =>
      if query.taken = false ∧ ∀ d ∈ asserts, (name, intWidth) ∉ d.cond.free then
        .ok (some ⟨[(name, .ofInt64 (-1))]⟩)
      else .error .unknown
    | none => .error .unknown
  | .solve _ => .error .unknown

def Oracle.ofNegative (σ : Type) : Oracle σ where
  ask q s := pure (q.negativeAnswer, s)

theorem Query.negativeAnswer_valid {b : Builder} (hb : b.Consistent) {q : Query} (hq : q.Made b) :
    q.Valid q.negativeAnswer := by
  cases q with
  | solve p => trivial
  | counterexample asserts query =>
      change Answer.Valid (negativeAnswer (.counterexample asserts query)) asserts query
      rw [negativeAnswer]
      split
      next name hname =>
        split_ifs with hfree
        · obtain ⟨htaken, hfree⟩ := hfree
          obtain ⟨hmem, hmeans⟩ := Term.holds_of_negative? hname
          obtain ⟨hquery, hasserts⟩ := List.forall_mem_cons.mp hq
          refine ⟨nofun, ?_⟩
          rintro m ⟨⟩ inputs hsymbols hholds
          obtain ⟨hinputs, hbound⟩ := List.forall_mem_cons.mp hsymbols
          refine ⟨fun d hd => ?_, ?_⟩
          · -- the symbols of the asserts are other ones, so they keep their values
            refine (Term.holds_congr hb (hasserts d hd).held fun x hx => ?_).trans (hholds d hd)
            have hne : x.1 ≠ name := by
              rintro rfl
              obtain ⟨i, -, hi⟩ := List.mem_map.mp (hbound d hd hx)
              cases hi
              exact hfree d hd hx
            exact InputMap.valuation_applyModel_of_none (by simp [Model.find?, hne.symm]) x.2
          · have hvalue := InputMap.valuation_applyModel (hinputs hmem)
              (show Model.find? ⟨[(name, .ofInt64 (-1))]⟩ name = some (.ofInt64 (-1)) by simp [Model.find?])
            change query.cond.holds _ = !query.taken
            rw [hmeans, htaken]
            change BitVec.slt (InputMap.valuation _ name intWidth) 0 = _
            rw [hvalue]
            decide
        · exact valid_error (.counterexample asserts query) _
      next => exact valid_error (.counterexample asserts query) _

/-- A table that drops what was not used for longest, and the stores at hand. -/
def StoreHandle.caching : Caching (Lru CachedAnswer) (StoreHandle × Shelf) :=
  { digest := Text.digest, front := Lru.front, store }

theorem Oracle.ofNegative_backing : QueryCache.Backing StoreHandle.caching (Oracle.ofNegative (StoreHandle × Shelf))
    (fun _ => True) Lru.Held StoreHandle.Kept where
  front := Lru.front_keeps
  store := StoreHandle.store_keeps
  get _ _ _ := trivial
  put _ _ _ _ := trivial
  ask _ _ _ _ hb hq := ⟨Query.negativeAnswer_valid hb hq, trivial, fun _ _ h => h, hb, le_rfl⟩

/-- Two predicates are satisfied together, whichever of them is asserted. -/
theorem Query.holdsFor_swap {d d' : Predicate} {ρ : Valuation} :
    HoldsFor ρ (.counterexample [d] d'.flip) ↔ HoldsFor ρ (.counterexample [d'] d.flip) := by
  have hflip : ∀ d : Predicate, d.flip.flip.HoldsFor ρ ↔ Trace.HoldsFor ρ [d] := fun d => by
    simp [Trace.HoldsFor, Predicate.HoldsFor, Predicate.flip]
  exact (and_congr_right fun _ => hflip d').trans (and_comm.trans (and_congr_right fun _ => (hflip d).symm))

/-- After a search that has one of them asserted, the search with the other one asserted has a formula that means
the same. -/
theorem QueryCache.Asked.swap {K : Caching φ σ} {inner : Oracle σ} {good : σ → Prop}
    {held : φ → String → CachedAnswer → Prop} {kept : σ → String → CachedAnswer → Prop}
    (hK : Backing K inner good held kept) {b : Builder} (hb : b.Consistent) {d d' : Predicate} (hd : d.Made b)
    (hd' : d'.Made b) {size : Int} {c : QueryCache φ} (hc : empty? K.front size = .ok c) {s : σ} (hs : good s)
    (hempty : ∀ key a, ¬kept s key a) :
    let first := (oracle K inner).findCounterexample [d] d'.flip (c, s) b
    let f := (Query.stated (.counterexample [d] d'.flip) b).1
    Asked K inner good kept [(.counterexample [d] d'.flip, f)] first.1.2 first.2 ∧
      (∀ e ∈ [d.flip, d'], e.Made first.2) ∧
      ∀ ρ, f.holds ρ = (Query.stated (.counterexample [d'] d.flip) first.2).1.holds ρ := by
  intro first f
  have hstart : Asked K inner good kept [] (c, s) b := .start hc hs hempty hb
  have hq : Query.Made b (.counterexample [d] d'.flip) := by
    simpa [Query.Made] using ⟨hd'.flip, hd⟩
  have hle := (ask_looked hK (hstart.traced hK) hq).grows
  have hasked := hstart.ask hq
  have hmade : ∀ e ∈ [d.flip, d'], e.Made first.2 := by
    simpa using ⟨hd.flip.mono hle, hd'.mono hle⟩
  refine ⟨hasked, hmade, fun ρ => ?_⟩
  have htraced := hasked.traced hK
  rw [Bool.eq_iff_iff, htraced.states _ List.mem_cons_self, Query.holdsFor_swap]
  have hq' : Query.Made first.2 (.counterexample [d'] d.flip) := hmade
  exact ((Query.stated_runs htraced.consistent hq').post ρ).symm

/-- One symbol is negative, and so is another one. -/
@[irreducible] def Predicate.negatives : Build (Predicate × Predicate) := do
  let x ← below "x" 0 true
  return (x, ← below "y" 0 true)

theorem Predicate.negatives_runs : Build.Runs negatives {} fun r c =>
    (r.1.Made c ∧ r.1.cond.free ⊆ [("x", intWidth)] ∧ ∀ ρ, r.1.HoldsFor ρ ↔ (ρ "x" 64).slt 0 = true) ∧
      r.2.Made c ∧ r.2.cond.free ⊆ [("y", intWidth)] ∧ ∀ ρ, r.2.HoldsFor ρ ↔ (ρ "y" 64).slt 0 = true := by
  unfold negatives
  refine Build.Runs.bind (below_runs consistent_empty "x" 0 true) fun x c hle hc hx => ?_
  refine Build.Runs.bind (below_runs hc "y" 0 true) fun y d hle' hd hy => Build.Runs.pure hd ?_
  obtain ⟨hxmade, hxtaken, hxfree, hxholds⟩ := hx
  obtain ⟨hymade, hytaken, hyfree, hyholds⟩ := hy
  refine ⟨⟨hxmade.mono hle', hxfree, fun ρ => ?_⟩, hymade, hyfree, fun ρ => ?_⟩
  · rw [HoldsFor, hxtaken, hxholds]
    rfl
  · rw [HoldsFor, hytaken, hyholds]
    rfl

/-- First one of them is asserted and the other one is searched for, then the other way round. The answer is the
model for the first search. -/
theorem QueryCache.negatives_swapped :
    let inner := Oracle.ofNegative (StoreHandle × Shelf)
    let o := oracle StoreHandle.caching inner
    let x := (Predicate.negatives {}).1.1
    let y := (Predicate.negatives {}).1.2
    let first := o.findCounterexample [x] y.flip ({ front := { capacity := 4 } }, .table "answers", {})
      (Predicate.negatives {}).2
    let f := (Query.stated (.counterexample [x] y.flip) (Predicate.negatives {}).2).1
    let f' := (Query.stated (.counterexample [y] x.flip) first.2).1
    Asked StoreHandle.caching inner (fun _ => True) StoreHandle.Kept [(.counterexample [x] y.flip, f)] first.1.2
        first.2 ∧
      (∀ d ∈ [x.flip, y], d.Made first.2) ∧ f.text = f'.text ∧ (∀ ρ, f.holds ρ = f'.holds ρ) ∧
      (o.findCounterexample [y] x.flip first.1.2 first.2).1.1 = .ok (some ⟨[("y", .ofInt64 (-1))]⟩) := by
  intro inner o x y first f f'
  obtain ⟨⟨hx, -⟩, hy, -⟩ := Predicate.negatives_runs.post
  have hroom : empty? StoreHandle.caching.front 4 = .ok { front := { capacity := 4 } } := rfl
  obtain ⟨hasked, hmade, hmeans⟩ := Asked.swap Oracle.ofNegative_backing Predicate.negatives_runs.consistent hx hy hroom
    (s := (.table "answers", {})) trivial nofun
  have htext : f.text = f'.text := by decide +kernel
  have hanswer : (o.findCounterexample [y] x.flip first.1.2 first.2).1.1 = .ok (some ⟨[("y", .ofInt64 (-1))]⟩) := by
    decide +kernel
  exact ⟨hasked, hmade, htext, hmeans, hanswer⟩

/-- The model can be applied where both are negative. -/
theorem cached_answers_valid_for_asserts_of_same_formula_of_negatives :
    let o := QueryCache.oracle StoreHandle.caching (Oracle.ofNegative (StoreHandle × Shelf))
    let x := (Predicate.negatives {}).1.1
    let y := (Predicate.negatives {}).1.2
    let first := o.findCounterexample [x] y.flip ({ front := { capacity := 4 } }, .table "answers", {})
      (Predicate.negatives {}).2
    let inputs : InputMap := ⟨[⟨"x", -7, true⟩, ⟨"y", -5, true⟩]⟩
    ∃ m, (o.findCounterexample [y] x.flip first.1.2 first.2).1.1 = .ok (some m) ∧
      Trace.HoldsFor (inputs.applyModel m).valuation [y] ∧
      Predicate.HoldsFor (inputs.applyModel m).valuation x.flip.flip := by
  intro o x y first inputs
  obtain ⟨⟨-, hxfree, hxholds⟩, -, hyfree, hyholds⟩ := Predicate.negatives_runs.post
  obtain ⟨hasked, hmade, htext, hmeans, hanswer⟩ := QueryCache.negatives_swapped
  obtain ⟨asserts', query', f', hmem, -, -, hsome⟩ := cached_answers_valid_for_asserts_of_same_formula
    Oracle.ofNegative_backing hasked hmade rfl (List.forall_mem_singleton.mpr fun _ => htext)
    (List.forall_mem_singleton.mpr fun _ => hmeans)
  have hx : x.cond.free ⊆ inputs.symbols ∧ x.HoldsFor inputs.valuation :=
    ⟨List.Subset.trans hxfree (by decide), (hxholds _).mpr (by decide)⟩
  have hy : y.cond.free ⊆ inputs.symbols ∧ y.HoldsFor inputs.valuation :=
    ⟨List.Subset.trans hyfree (by decide), (hyholds _).mpr (by decide)⟩
  have hboth : (∀ d ∈ query' :: asserts', d.cond.free ⊆ inputs.symbols) ∧
      Trace.HoldsFor inputs.valuation asserts' := by
    rcases List.mem_cons.mp hmem with heq | hmem
    · cases heq
      exact ⟨List.forall_mem_cons.mpr ⟨hx.1, List.forall_mem_singleton.mpr hy.1⟩, List.forall_mem_singleton.mpr hy.2⟩
    · cases List.mem_singleton.mp hmem
      exact ⟨List.forall_mem_cons.mpr ⟨hy.1, List.forall_mem_singleton.mpr hx.1⟩, List.forall_mem_singleton.mpr hx.2⟩
  exact ⟨_, hanswer, hsome _ hanswer inputs hboth.1 hboth.2⟩

/-- Where the other symbol is not negative, the model leads to inputs that are no counterexample. -/
theorem cached_answer_invalid_for_other_asserts :
    let inner := Oracle.ofNegative (StoreHandle × Shelf)
    let o := QueryCache.oracle StoreHandle.caching inner
    let x := (Predicate.negatives {}).1.1
    let y := (Predicate.negatives {}).1.2
    let first := o.findCounterexample [x] y.flip ({ front := { capacity := 4 } }, .table "answers", {})
      (Predicate.negatives {}).2
    let f := (Query.stated (.counterexample [x] y.flip) (Predicate.negatives {}).2).1
    QueryCache.Backing StoreHandle.caching inner (fun _ => True) Lru.Held StoreHandle.Kept ∧
      QueryCache.Asked StoreHandle.caching inner (fun _ => True) StoreHandle.Kept
        [(.counterexample [x] y.flip, f)] first.1.2 first.2 ∧
      (∀ d ∈ [x.flip, y], d.Made first.2) ∧
      f.text = (Query.stated (.counterexample [y] x.flip) first.2).1.text ∧
      ¬(o.findCounterexample [y] x.flip first.1.2 first.2).1.1.Valid [y] x.flip := by
  intro inner o x y first f
  obtain ⟨⟨-, hxfree, hxholds⟩, -, hyfree, hyholds⟩ := Predicate.negatives_runs.post
  obtain ⟨hasked, hmade, htext, -, hanswer⟩ := QueryCache.negatives_swapped
  refine ⟨Oracle.ofNegative_backing, hasked, hmade, htext, fun hvalid => ?_⟩
  let inputs : InputMap := ⟨[⟨"x", 0, true⟩, ⟨"y", -5, true⟩]⟩
  have hsymbols : ∀ d ∈ [x.flip, y], d.cond.free ⊆ inputs.symbols := List.forall_mem_cons.mpr
    ⟨List.Subset.trans hxfree (by decide), List.forall_mem_singleton.mpr (List.Subset.trans hyfree (by decide))⟩
  have hy : Trace.HoldsFor inputs.valuation [y] := List.forall_mem_singleton.mpr ((hyholds _).mpr (by decide))
  obtain ⟨-, hx⟩ := hvalid.sat _ hanswer inputs hsymbols hy
  have hnegative : ((inputs.applyModel ⟨[("y", .ofInt64 (-1))]⟩).valuation "x" 64).slt 0 = true :=
    (hxholds _).mp (by simpa [Predicate.HoldsFor, Predicate.flip] using hx)
  revert hnegative
  decide

end Pathwise
