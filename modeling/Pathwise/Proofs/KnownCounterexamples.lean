import Pathwise.Grading
import Pathwise.Proofs.ReadableTexts
import Pathwise.Proofs.Rechecking
import Pathwise.Proofs.ScriptOutcomes

/-! Known counterexamples are not forgotten. A check that reports a difference leaves an entry in the corpus with the
input of its counterexample, and requests with other stamps leave the entry there, also those that are cancelled and
those whose own entry cannot be written. Every later check of the program is given an input of the same text before all
others. It has the same names and values: names of parameters have no equals sign, and a check is not answered unless
all its inputs assign the parameters and nothing else. The implementations in the catalogue are deterministic, so the
variant differs there again.

Nothing is assumed of the oracles, nor of the entries that were in the corpus before. -/

namespace Pathwise

variable {σ τ : Type}

/-! ### The corpus -/

theorem Text.lower_append (a b : String) : lower (a ++ b) = lower a ++ lower b := by
  apply String.toList_inj.mp
  simp [lower]

namespace Filed

variable {α : Type}

theorem exists_mem_put (name : String) (entry : α) (fs : List (Filed α)) :
    ∃ f ∈ put name entry fs, Text.lower f.name = Text.lower name ∧ f.entry = entry := by
  induction fs with
  | nil => exact ⟨_, List.mem_singleton_self _, rfl, rfl⟩
  | cons f fs ih =>
      rw [put]
      split_ifs with hname
      · exact ⟨_, List.mem_cons_self, hname, rfl⟩
      · obtain ⟨f', hmem, hf'⟩ := ih
        exact ⟨f', List.mem_cons_of_mem _ hmem, hf'⟩

/-- Only the file of that name changes. -/
theorem mem_put_of_ne {name : String} {f : Filed α} (hname : Text.lower f.name ≠ Text.lower name) (entry : α)
    {fs : List (Filed α)} (hf : f ∈ fs) : f ∈ put name entry fs := by
  induction fs with
  | nil => cases hf
  | cons f' fs ih =>
      rw [put]
      split_ifs with hput
      · rcases List.mem_cons.mp hf with rfl | hf
        · exact absurd hput hname
        · exact List.mem_cons_of_mem _ hf
      · exact List.mem_cons.mpr ((List.mem_cons.mp hf).imp_right ih)

end Filed

namespace Corpus

/-- Under the name of an entry, the corpus has a counterexample to some candidate of the program. -/
def Records (c : Corpus) (id program : String) (input : Assignments) : Prop :=
  ∃ f ∈ c.checks, Text.lower f.name = Text.lower (id ++ ".json") ∧ f.entry.program = program ∧
    f.entry.known = some (some input)

variable {c : Corpus} {id program : String} {input : Assignments}

theorem records_addCheck (c : Corpus) {e : CheckEntry} (h : e.known = some (some input)) :
    (c.addCheck e).Records e.id e.program input := by
  obtain ⟨f, hmem, hname, hentry⟩ := Filed.exists_mem_put (e.id ++ ".json") e c.checks
  exact ⟨f, hmem, hname, hentry ▸ rfl, hentry ▸ h⟩

/-- An entry of another name leaves it there. -/
theorem Records.addCheck (h : c.Records id program input) {e : CheckEntry}
    (hid : Text.lower e.id ≠ Text.lower id) : (c.addCheck e).Records id program input := by
  obtain ⟨f, hmem, hname, hf⟩ := h
  refine ⟨f, Filed.mem_put_of_ne ?_ e hmem, hname, hf⟩
  rw [hname, Text.lower_append, Text.lower_append]
  exact fun heq => hid ((String.append_left_inj _).mp heq).symm

theorem exists_text_addDistinct (known : List (Option Assignments)) (k : Option Assignments) :
    ∃ k' ∈ addDistinct known k, (k'.getD []).text = (k.getD []).text := by
  unfold addDistinct
  split_ifs with hany
  · obtain ⟨k', hmem, htext⟩ := List.any_eq_true.mp hany
    exact ⟨k', hmem, beq_iff_eq.mp htext⟩
  · exact ⟨k, List.mem_append_right _ (List.mem_singleton_self k), rfl⟩

theorem subset_addDistinct (known : List (Option Assignments)) (k : Option Assignments) :
    known ⊆ addDistinct known k := by
  unfold addDistinct
  split_ifs
  · exact List.Subset.refl known
  · exact List.subset_append_left known [k]

/-- Of inputs that look the same, one is among the distinct ones. -/
theorem exists_text_foldl_addDistinct (ks : List (Option Assignments)) : ∀ (known : List (Option Assignments))
    {k : Option Assignments}, k ∈ known ++ ks →
      ∃ k' ∈ ks.foldl addDistinct known, (k'.getD []).text = (k.getD []).text := by
  induction ks with
  | nil => exact fun known k hk => ⟨k, (List.append_nil known) ▸ hk, rfl⟩
  | cons k₀ ks ih =>
      intro known k hk
      rcases List.mem_append.mp hk with hk | hk
      · exact ih _ (List.mem_append_left _ (subset_addDistinct known k₀ hk))
      · rcases List.mem_cons.mp hk with rfl | hk
        · obtain ⟨k', hmem, htext⟩ := exists_text_addDistinct known k
          obtain ⟨k'', hmem', htext'⟩ := ih _ (List.mem_append_left ks hmem)
          exact ⟨k'', hmem', htext'.trans htext⟩
        · exact ih _ (List.mem_append_right _ hk)

theorem Records.exists_counterexample (h : c.Records id program input) :
    ∃ k ∈ c.counterexamples program, (k.getD []).text = input.text := by
  obtain ⟨f, hmem, -, hprogram, hknown⟩ := h
  have hcheck : f.entry ∈ c.checksOf program := by
    refine List.mem_mergeSort.mpr (List.mem_filter.mpr ⟨List.mem_map_of_mem hmem, ?_⟩)
    rw [decide_eq_true hprogram, Bool.or_true]
  exact exists_text_foldl_addDistinct _ [] (List.mem_filterMap.mpr ⟨f.entry, hcheck, hknown⟩)

end Corpus

/-- An input that covers parameters assigns these and no others. -/
theorem Assignments.perm_of_covers {as : Assignments} {params : List String} (hparams : params.Nodup)
    (h : as.covers params = true) : (as.map (·.name)).Perm params := by
  rw [covers, Bool.and_eq_true, Bool.and_eq_true, decide_eq_true_eq, List.all_eq_true] at h
  obtain ⟨⟨hlength, -⟩, hcontains⟩ := h
  have hsubset : params ⊆ as.map (·.name) := fun name hname => List.contains_iff_mem.mp (hcontains name hname)
  exact ((hparams.subperm hsubset).perm_of_length_le hlength.le).symm

/-! ### Answered checks -/

theorem Explorer.make?_eq_ok {target : Invocation} {hasOracle : Bool} {cap : Int} {seed fixed : List (String × Int64)}
    {e : Explorer} (h : make? (some target) hasOracle cap seed fixed = .ok e) : e.target = target := by
  unfold make? at h
  dsimp only at h
  split_ifs at h
  split at h
  · cases h
  · cases h
    rfl

theorem Checker.make?_eq_ok {reference candidate : Invocation} {hasOracle : Bool} {c : Checker}
    (h : make? (some reference) (some candidate) hasOracle = .ok c) : c = { reference, candidate } := by
  unfold make? at h
  dsimp only at h
  split_ifs at h
  cases h
  rfl

/-- A variant to be checked against the reference, on the first two paths of a session. -/
def Program.checker (p : Program) (v : Variant) (stopOnFirst : Bool) (prior : List Finding)
    (cancelled : List Event → Bool) : Checker where
  reference := ⟨p.name, p.params, p.reference.run, 0, 0⟩
  candidate := ⟨p.name ++ "/" ++ v.name, p.params, v.script.run, 1, 0⟩
  stopOnFirst
  prior
  cancelled

/-- The two implementations, with nothing that makes a check end early. -/
def Program.pair (p : Program) (v : Variant) : Checker := p.checker v false [] fun _ => false

/-- The first two paths can be used. -/
def World.Staged (w : World) : Prop := w.Ready 0 ∧ w.Ready 1

theorem Catalogue.mem_of_lookup {name : String} {p : Program} (h : lookup name = .ok p) : p ∈ programs := by
  unfold lookup at h
  split at h
  next q hfind =>
      cases h
      exact List.mem_of_find?_eq_some hfind
  next => cases h

namespace Program

variable {p : Program} {v : Variant}

theorem mem_of_variant {name : String} (h : p.variant name = .ok v) : v ∈ p.variants := by
  unfold variant at h
  split at h
  next v' hfind =>
      cases h
      exact List.mem_of_find?_eq_some hfind
  next => cases h

theorem checker_deterministic {σ : Type} (hp : p ∈ Catalogue.programs) (hv : v ∈ p.variants) {stopOnFirst : Bool}
    {prior : List Finding} {cancelled : List Event → Bool} (o : Oracle σ) :
    (p.checker v stopOnFirst prior cancelled).Deterministic o World.Staged := by
  obtain ⟨hreference, hvariants⟩ := Catalogue.isLocal_of_mem p hp
  exact Checker.deterministic_of_local rfl rfl hreference (hvariants v hv) o

end Program

/-- No parameter of a program has an equals sign in its name. -/
theorem Catalogue.params_of_mem : ∀ p ∈ Catalogue.programs, p.params.Nodup ∧
    ∀ name ∈ p.params, '=' ∉ name.toList := by
  decide

namespace Grader

variable {g : Grader σ τ} {st st' : GradingState τ} {β : Type} {b : β}

theorem target_of_explorerFor {cap : Int} {strategy : String} {seed : List (String × Int64)}
    {make : Option Invocation → Bool → Except ExplorerError Explorer}
    (hmake : g.explorerFor cap strategy seed = .ok make) {target : Invocation} {hasOracle : Bool} {e : Explorer}
    (he : make (some target) hasOracle = .ok e) : e.target = target := by
  unfold explorerFor at hmake
  split at hmake
  · cases hmake
  · dsimp only at hmake
    split at hmake
    · cases hmake
    · cases hmake
      dsimp only at he
      cases hmade : Explorer.make? (some target) hasOracle cap (overrideSettings seed g.config.seed) [] with
      | error err =>
          rw [hmade] at he
          cases he
      | ok e' =>
          rw [hmade] at he
          cases he
          change e'.target = target
          exact Explorer.make?_eq_ok hmade

theorem ok_of_orFail {ε α : Type} {f : ε → Failure} {r : Except ε α} {next : α → Grading τ β}
    (h : (orFail f r >>= next) st = (.ok b, st')) : ∃ a, r = .ok a ∧ next a st = (.ok b, st') := by
  cases r with
  | error e => cases h
  | ok a => exact ⟨a, rfl, h⟩

/-- The session goes on without its events, and the corpus stays. -/
theorem engine_eq {α : Type} {act : Engine σ α} {s s₁ : Session σ} {r : Except CallError α}
    (h : act s = (r, s₁)) (g : Grader σ τ) (st : GradingState τ) :
    g.engine act s st = ((r.mapError CallError.failure).map (·, { s₁ with events := [] }),
      { st with metrics := st.metrics.recordAll s₁.events, shared := g.source.finish s₁.oracle }) := by
  unfold engine
  rw [ExceptT.run, h]
  cases r <;> rfl

theorem ok_of_engine {α : Type} {act : Engine σ α} {s : Session σ} {next : α × Session σ → Grading τ β}
    (h : (g.engine act s >>= next) st = (.ok b, st')) :
    ∃ a s₁ st₁, act s = (.ok a, s₁) ∧ st₁.corpus = st.corpus ∧
      next (a, { s₁ with events := [] }) st₁ = (.ok b, st') := by
  rcases hact : act s with ⟨err | a, s₁⟩
  · rw [bind_of_error (engine_eq hact g st)] at h
    cases h
  · rw [bind_of_ok (engine_eq hact g st)] at h
    refine ⟨a, s₁, _, rfl, ?_, h⟩
    rfl

theorem startOracle_eq {r : Except Failure (Option σ)} {shared : τ} (h : g.source.start st.shared = (r, shared)) :
    g.startOracle st = (r, { st with shared }) := by
  have hget : (get : Grading τ (GradingState τ)) st = (.ok st, st) := rfl
  unfold startOracle
  rw [bind_of_ok hget, h]
  cases r <;> rfl

theorem ok_of_startOracle {next : Option σ → Grading τ β}
    (h : (g.startOracle >>= next) st = (.ok b, st')) :
    ∃ oracle st₁, st₁.corpus = st.corpus ∧ next oracle st₁ = (.ok b, st') := by
  rcases hstart : g.source.start st.shared with ⟨err | oracle, shared⟩
  · rw [bind_of_error (startOracle_eq hstart)] at h
    cases h
  · rw [bind_of_ok (startOracle_eq hstart)] at h
    refine ⟨oracle, _, ?_, h⟩
    rfl

theorem ok_of_requireCovers {params : List String} {inputs : List Assignments} {next : Grading τ β}
    (h : (do
      for input in inputs do
        requireCovers params input
      next) st = (.ok b, st')) :
    (∀ input ∈ inputs, input.covers params = true) ∧ next st = (.ok b, st') := by
  induction inputs with
  | nil => exact ⟨nofun, h⟩
  | cons input inputs ih =>
      rw [List.forIn_cons] at h
      by_cases hcovers : input.covers params = true
      · have hpass : requireCovers params input = (pure () : Grading τ Unit) := if_pos hcovers
        rw [hpass] at h
        obtain ⟨hrest, hnext⟩ := ih h
        exact ⟨List.forall_mem_cons.mpr ⟨hcovers, hrest⟩, hnext⟩
      · have hfail : (requireCovers params input : Grading τ Unit) = throw _ := if_neg hcovers
        rw [hfail] at h
        cases h

theorem ok_of_proceed {within : Conditions} {cancelled : Bool} {next : Unit → Grading τ β}
    (h : (orFail id (within.proceed cancelled) >>= next) st = (.ok b, st')) :
    cancelled = false ∧ next () st = (.ok b, st') := by
  cases cancelled with
  | false => exact ⟨rfl, h⟩
  | true => cases h

/-- Whether or not it can be written, the entry is in the corpus. -/
theorem state_addEntry (within : Conditions) (name : String) (add : Corpus → Corpus) (st : GradingState τ) :
    (addEntry within name add st).2 = { st with corpus := st.corpus.map add } := by
  obtain ⟨corpus, metrics, shared⟩ := st
  cases corpus with
  | none => rfl
  | some c =>
      change ((do orFail id (within.flush (add c)); return some name : Grading τ (Option String))
        ⟨some (add c), metrics, shared⟩).2 = _
      cases within.flush (add c) <;> rfl

theorem ok_of_addEntry {within : Conditions} {name : String} {add : Corpus → Corpus}
    {next : Option String → Grading τ β} (h : (addEntry within name add >>= next) st = (.ok b, st')) :
    ∃ id, next id { st with corpus := st.corpus.map add } = (.ok b, st') := by
  rcases hadd : addEntry within name add st with ⟨f | id, st₁⟩
  · rw [bind_of_error hadd] at h
    cases h
  · have hstate := state_addEntry within name add st
    rw [hadd] at hstate
    rw [bind_of_ok hadd] at h
    exact ⟨id, hstate ▸ h⟩

/-- How a check was answered. -/
inductive Answered (g : Grader σ τ) (req : CheckRequest) (stamp : Stamp) (st : GradingState τ)
    (resp : CheckResponse) (st' : GradingState τ) (p : Program) (v : Variant) : Prop where
  | intro {prior : List Finding} {cancelled : List Event → Bool} {inputs : List Assignments} {s s' : Session σ}
      {fin : CheckEnd}
      (hprogram : Catalogue.lookup req.program = .ok p) (hvariant : p.variant req.variant = .ok v)
      (hstaged : s.world.Staged)
      (hknown : ∀ k ∈ counterexamples st p.name, k.getD [] ∈ inputs)
      (hcovers : ∀ input ∈ inputs, input.covers p.params = true)
      (hcheck : (p.checker v (req.stopOnFirst || g.config.stopOnFirst) prior cancelled).check g.source.oracle inputs s =
        (.ok fin, s'))
      (hfin : fin.cancelled = false)
      (hreport : resp.report = fin.report)
      (hcorpus : st'.corpus = st.corpus.map (·.addCheck (.ofReport stamp p.name req.variant fin.report))) :
      Answered g req stamp st resp st' p v

theorem answered_of_check {req : CheckRequest} {stamp : Stamp} {within : Conditions} {resp : CheckResponse}
    (h : g.check req stamp within st = (.ok resp, st')) : ∃ p v, g.Answered req stamp st resp st' p v := by
  -- every step of the request was passed, in the order of the definition
  obtain ⟨p, hp, h₁⟩ := ok_of_orFail h
  obtain ⟨make, hmake, h₂⟩ := ok_of_orFail h₁
  obtain ⟨⟨reference, w⟩, href, h₃⟩ := ok_of_orFail h₂
  obtain ⟨v, hv, h₄⟩ := ok_of_orFail h₃
  obtain ⟨⟨candidate, w'⟩, hcand, h₅⟩ := ok_of_orFail h₄
  obtain ⟨oracle, st₁, hst₁, h₆⟩ := ok_of_startOracle h₅
  obtain ⟨e, he, h₇⟩ := ok_of_orFail h₆
  rcases oracle with _ | oracle
  · cases h₇
  obtain ⟨x, s, st₂, hx, hst₂, h₈⟩ := ok_of_engine h₇
  obtain ⟨-, h₉⟩ := ok_of_proceed h₈
  obtain ⟨hcovers, h₁₀⟩ := ok_of_requireCovers h₉
  obtain ⟨c, hc, h₁₁⟩ := ok_of_orFail h₁₀
  obtain ⟨y, s', st₃, hy, hst₃, h₁₂⟩ := ok_of_engine h₁₁
  obtain ⟨hfin, h₁₃⟩ := ok_of_proceed h₁₂
  obtain ⟨id, h₁₄⟩ := ok_of_addEntry h₁₃
  cases h₁₄
  -- the implementations are on the first two paths of the session, and exploring leaves these ready
  obtain ⟨_, hbody, rfl, rfl⟩ := Target.invoke_eq_ok href
  obtain ⟨_, hbody', rfl, rfl⟩ := Target.invoke_eq_ok hcand
  cases hbody
  cases hbody'
  obtain rfl := Checker.make?_eq_ok hc
  have hdeterministic : (p.pair v).Deterministic g.source.oracle World.Staged :=
    Program.checker_deterministic (Catalogue.mem_of_lookup hp) (Program.mem_of_variant hv) _
  have hstays : Explorer.Stays { e with cancelled := within.exploring } World.Staged := by
    refine ⟨?_, Checker.callable_build (c := p.pair v)⟩
    dsimp only
    rw [target_of_explorerFor hmake he]
    exact hdeterministic.reference.stays
  have hcorpus : st₂.corpus = st.corpus := hst₂.trans hst₁
  have hstart : ({} : World).newPath.2.newPath.2.Staged := ⟨⟨Nat.two_pos, rfl⟩, Nat.one_lt_two, rfl⟩
  have hstaged : s.world.Staged := hstays.explore hstart hx
  refine ⟨p, v, .intro (s := { s with events := [] }) hp hv hstaged (fun k hk => ?_) hcovers hy hfin rfl ?_⟩
  · rw [hcorpus]
    exact List.mem_append_left _ (List.mem_append_left _ (List.mem_map_of_mem hk))
  · rw [← hcorpus, ← hst₃]

theorem Answered.implementations {req : CheckRequest} {stamp : Stamp} {resp : CheckResponse} {p : Program} {v : Variant}
    (h : g.Answered req stamp st resp st' p v) :
    Catalogue.lookup req.program = .ok p ∧ p.variant req.variant = .ok v := by
  obtain ⟨hprogram, hvariant, -⟩ := h
  exact ⟨hprogram, hvariant⟩

/-- What is known of a counterexample that was reported: it is confirmed, and assigns the parameters. -/
structure Established (p : Program) (v : Variant) (x : Counterexample) : Prop where
  confirmed : (p.pair v).Confirmed World.Staged x
  names : ∀ a ∈ x.input, a.name ∈ p.params

/-- The corpus has the input under the name of an entry. -/
def Remembers (corpus : Option Corpus) (id program : String) (input : Assignments) : Prop :=
  ∃ c, corpus = some c ∧ c.Records id program input

section

variable {req : CheckRequest} {stamp : Stamp} {resp : CheckResponse} {p : Program} {v : Variant}

/-- A difference that was reported is established, and the corpus has it. -/
theorem Answered.remembers (h : g.Answered req stamp st resp st' p v)
    (hverdict : resp.report.verdict = .notEquivalent) (hsome : st.corpus.isSome = true) :
    ∃ x, Established p v x ∧ Remembers st'.corpus stamp.id p.name x.input := by
  obtain ⟨hprogram, hvariant, hstaged, -, hcovers, hcheck, -, hreport, hcorpus⟩ := h
  have hp := Catalogue.mem_of_lookup hprogram
  have hv := Program.mem_of_variant hvariant
  obtain ⟨-, hiff, hconfirmed⟩ := Checker.reported_of_check (Program.checker_deterministic hp hv _) hstaged hcheck
  rw [hreport, hiff] at hverdict
  obtain ⟨x, hx⟩ := Option.ne_none_iff_exists'.mp hverdict
  refine ⟨x, ⟨hconfirmed x hx, fun a ha => ?_⟩, ?_⟩
  · obtain ⟨input, hmem, hnames⟩ := Checker.names_of_check hcheck hx
    have hname : a.name ∈ input.inputMap.names := hnames ▸ List.mem_map_of_mem ha
    exact (Assignments.perm_of_covers (Catalogue.params_of_mem p hp).1 (hcovers input hmem)).subset
      (InputMap.names_inputMap_subset input hname)
  · obtain ⟨corpus, hst⟩ := Option.isSome_iff_exists.mp hsome
    refine ⟨_, by rw [hcorpus, hst]; rfl, corpus.records_addCheck (e := .ofReport stamp p.name req.variant _) ?_⟩
    exact congrArg (Option.map fun c => some c.input) hx

/-- An established difference that the corpus has is found again, unless the check stops early. -/
theorem Answered.finds (h : g.Answered req stamp st resp st' p v) {x : Counterexample} (hx : Established p v x)
    {id : String} (hknown : Remembers st.corpus id p.name x.input) (hrequest : req.stopOnFirst = false)
    (hconfig : g.config.stopOnFirst = false) : resp.report.verdict = .notEquivalent := by
  obtain ⟨hprogram, hvariant, hstaged, hinputs, hcovers, hcheck, hfin, hreport, -⟩ := h
  have hp := Catalogue.mem_of_lookup hprogram
  obtain ⟨hnodup, hplain⟩ := Catalogue.params_of_mem p hp
  have hv := Program.mem_of_variant hvariant
  obtain ⟨corpus, hst, hrecords⟩ := hknown
  obtain ⟨k, hk, htext⟩ := hrecords.exists_counterexample
  have hmem : k.getD [] ∈ _ := hinputs k (by rw [counterexamples, hst]; exact hk)
  have hnames := Assignments.perm_of_covers hnodup (hcovers _ hmem)
  -- the corpus tells inputs apart by their texts only, so the one that is tried again has to be read back
  have hinput : k.getD [] = x.input := by
    refine Assignments.text_inj (fun a ha => ?_) (fun a ha => hplain _ (hx.names a ha)) htext
    exact hplain _ (hnames.subset (List.mem_map_of_mem ha))
  rw [hreport]
  rw [hrequest, hconfig] at hcheck
  refine Checker.notEquivalent_of_confirmed (Program.checker_deterministic hp hv _) rfl ?_ (hinput ▸ hmem) hstaged
    hcheck hfin
  exact hx.confirmed

end

/-! ### What requests leave in the corpus -/

/-- Whatever comes of it, the computation keeps what is so of the corpus. -/
def Preserves {α : Type} (I : Option Corpus → Prop) (act : Grading τ α) : Prop :=
  ∀ st, I st.corpus → I (act st).2.corpus

namespace Preserves

variable {α γ : Type} {I : Option Corpus → Prop}

theorem pure (a : α) : Preserves I (Pure.pure a : Grading τ α) := fun _ h => h

theorem throw (e : Failure) : Preserves I (MonadExcept.throw e : Grading τ α) := fun _ h => h

theorem get : Preserves I (MonadState.get : Grading τ (GradingState τ)) := fun _ h => h

theorem bind {act : Grading τ α} {next : α → Grading τ γ} (h : Preserves I act)
    (hnext : ∀ a, Preserves I (next a)) : Preserves I (act >>= next) := by
  intro st hst
  have hact := h st hst
  rcases hrun : act st with ⟨err | a, st'⟩
  · rw [bind_of_error hrun]
    rwa [hrun] at hact
  · rw [bind_of_ok hrun]
    rw [hrun] at hact
    exact hnext a st' hact

theorem orFail {ε : Type} (f : ε → Failure) (r : Except ε α) : Preserves I (Grader.orFail f r : Grading τ α) := by
  cases r with
  | error e => exact throw (f e)
  | ok a => exact pure a

theorem engine (g : Grader σ τ) (act : Engine σ α) (s : Session σ) : Preserves I (g.engine act s) := by
  intro st hst
  rcases hact : act s with ⟨r, s₁⟩
  rw [engine_eq hact]
  exact hst

theorem startOracle (g : Grader σ τ) : Preserves I g.startOracle := by
  intro st hst
  rw [startOracle_eq rfl]
  exact hst

theorem requireCovers (params : List String) (input : Assignments) :
    Preserves I (Grader.requireCovers params input : Grading τ Unit) := by
  unfold Grader.requireCovers
  split_ifs
  · exact pure _
  · exact throw _

theorem forIn {inputs : List Assignments} {body : Assignments → Grading τ Unit}
    (h : ∀ input, Preserves I (body input)) :
    Preserves I (ForIn.forIn inputs PUnit.unit fun input _ => do
      body input
      Pure.pure (ForInStep.yield PUnit.unit) : Grading τ PUnit) := by
  induction inputs with
  | nil => exact pure _
  | cons input inputs ih =>
      rw [List.forIn_cons]
      refine ((h input).bind fun _ => pure _).bind fun step => ?_
      cases step with
      | done => exact pure _
      | yield => exact ih

theorem addEntry {within : Conditions} {name : String} {add : Corpus → Corpus}
    (hadd : ∀ c, I (some c) → I (some (add c))) :
    Preserves I (Grader.addEntry within name add : Grading τ (Option String)) := by
  intro st hst
  rw [state_addEntry]
  dsimp only
  cases hcorpus : st.corpus with
  | none =>
      rw [hcorpus] at hst
      exact hst
  | some c =>
      rw [hcorpus] at hst
      exact hadd c hst

theorem check (g : Grader σ τ) (req : CheckRequest) (stamp : Stamp) (within : Conditions)
    (hadd : ∀ (c : Corpus) (e : CheckEntry), e.id = stamp.id → I (some c) → I (some (c.addCheck e))) :
    Preserves I (g.check req stamp within) := by
  refine (orFail _ _).bind fun p => ?_
  refine (orFail _ _).bind fun make => ?_
  refine (orFail _ _).bind fun ⟨reference, w⟩ => ?_
  refine (orFail _ _).bind fun v => ?_
  refine (orFail _ _).bind fun ⟨candidate, w'⟩ => ?_
  refine (startOracle g).bind fun oracle => ?_
  refine (orFail _ _).bind fun e => ?_
  cases oracle with
  | none => exact throw _
  | some oracle =>
      refine (engine g _ _).bind fun ⟨x, s⟩ => (orFail _ _).bind fun _ => get.bind fun st => ?_
      refine (forIn (requireCovers p.params)).bind fun _ => ?_
      refine (orFail _ _).bind fun c => ?_
      refine (engine g _ _).bind fun ⟨y, s'⟩ => (orFail _ _).bind fun _ => ?_
      exact (addEntry fun c => hadd c _ rfl).bind fun id => pure _

theorem explore (g : Grader σ τ) (req : ExploreRequest) (stamp : Stamp) (within : Conditions)
    (hadd : ∀ (c : Corpus) (e : ExplorationEntry), I (some c) → I (some (c.addExploration e))) :
    Preserves I (g.explore req stamp within) := by
  refine (orFail _ _).bind fun p => ?_
  refine (orFail _ _).bind fun make => ?_
  refine (orFail _ _).bind fun ⟨reference, w⟩ => ?_
  refine (startOracle g).bind fun oracle => ?_
  refine (orFail _ _).bind fun e => ?_
  cases oracle with
  | none => exact throw _
  | some oracle =>
      refine (engine g _ _).bind fun ⟨x, s⟩ => (orFail _ _).bind fun _ => ?_
      exact (addEntry fun c => hadd c _).bind fun id => pure _

end Preserves

/-! ### Requests one after the other -/

/-- What a client can ask for, and under which conditions. -/
inductive Request where
  | explore (req : ExploreRequest) (within : Conditions)
  | check (req : CheckRequest) (within : Conditions)

/-- Answers a request. -/
def serve (g : Grader σ τ) (stamp : Stamp) : Request → Grading τ (ExploreResponse ⊕ CheckResponse)
  | .explore req within => do return .inl (← g.explore req stamp within)
  | .check req within => do return .inr (← g.check req stamp within)

/-- The responses to requests, each with the stamp that its entry is given. -/
def responses (g : Grader σ τ) :
    List (Request × Stamp) → GradingState τ → List (Except Failure (ExploreResponse ⊕ CheckResponse))
  | [], _ => []
  | (r, stamp) :: rs, st => (g.serve stamp r st).1 :: g.responses rs (g.serve stamp r st).2

variable {stamp : Stamp}

theorem Preserves.serve {I : Option Corpus → Prop} (g : Grader σ τ)
    (hexplore : ∀ (c : Corpus) (e : ExplorationEntry), I (some c) → I (some (c.addExploration e)))
    (hcheck : ∀ (c : Corpus) (e : CheckEntry), e.id = stamp.id → I (some c) → I (some (c.addCheck e))) (r : Request) :
    Preserves I (g.serve stamp r) := by
  cases r with
  | explore req within => exact (Preserves.explore g req stamp within hexplore).bind fun _ => .pure _
  | check req within => exact (Preserves.check g req stamp within hcheck).bind fun _ => .pure _

/-- A request keeps what the corpus has under other names. -/
theorem Remembers.serve {id program : String} {input : Assignments} (h : Remembers st.corpus id program input)
    (hid : Text.lower stamp.id ≠ Text.lower id) (g : Grader σ τ) (r : Request) :
    Remembers (g.serve stamp r st).2.corpus id program input := by
  refine Preserves.serve (I := fun corpus => Remembers corpus id program input) g ?_ ?_ r st h
  · rintro c e ⟨_, ⟨⟩, hrecords⟩
    exact ⟨_, rfl, hrecords⟩
  · rintro c e he ⟨_, ⟨⟩, hrecords⟩
    exact ⟨_, rfl, hrecords.addCheck (he ▸ hid)⟩

theorem isSome_corpus_serve (h : st.corpus.isSome = true) (g : Grader σ τ) (stamp : Stamp) (r : Request) :
    (g.serve stamp r st).2.corpus.isSome = true :=
  Preserves.serve (I := fun corpus => corpus.isSome = true) g (fun _ _ _ => rfl) (fun _ _ _ _ => rfl) r st h

theorem check_of_serve {req : CheckRequest} {within : Conditions} {resp : CheckResponse}
    (h : (g.serve stamp (.check req within) st).1 = .ok (.inr resp)) :
    g.check req stamp within st = (.ok resp, (g.serve stamp (.check req within) st).2) := by
  rcases hcheck : g.check req stamp within st with ⟨err | resp', st'⟩
  · have hserve : g.serve stamp (.check req within) st = (.error err, st') := bind_of_error hcheck
    rw [hserve] at h
    cases h
  · have hserve : g.serve stamp (.check req within) st = (.ok (.inr resp'), st') := bind_of_ok hcheck
    rw [hserve] at h ⊢
    cases h
    rfl

/-- An established difference that the corpus has is found by every later check. -/
theorem responses_find {p : Program} {v : Variant} {x : Counterexample} (hx : Established p v x)
    (hconfig : g.config.stopOnFirst = false) {id : String} (rs : List (Request × Stamp)) :
    ∀ {st : GradingState τ} {i : Nat} {req : CheckRequest} {within : Conditions} {stamp : Stamp} {resp : CheckResponse},
      Remembers st.corpus id p.name x.input → (∀ r ∈ rs, Text.lower r.2.id ≠ Text.lower id) →
      rs[i]? = some (.check req within, stamp) → Catalogue.lookup req.program = .ok p → p.variant req.variant = .ok v →
      req.stopOnFirst = false → (g.responses rs st)[i]? = some (.ok (.inr resp)) →
      resp.report.verdict = .notEquivalent := by
  induction rs with
  | nil => exact fun _ _ hreq => absurd hreq.symm (Option.some_ne_none _)
  | cons r rs ih =>
      obtain ⟨r, stamp₀⟩ := r
      intro st i req within stamp resp hst hids hreq hprogram hvariant hstop hresp
      obtain ⟨hid, hids⟩ := List.forall_mem_cons.mp hids
      cases i with
      | zero =>
          cases hreq
          obtain ⟨p', v', hanswered⟩ := answered_of_check (check_of_serve (Option.some.inj hresp))
          obtain ⟨hprogram', hvariant'⟩ := hanswered.implementations
          obtain rfl : p = p' := Except.ok.inj (hprogram.symm.trans hprogram')
          obtain rfl : v = v' := Except.ok.inj (hvariant.symm.trans hvariant')
          exact hanswered.finds hx hst hstop hconfig
      | succ i => exact ih (hst.serve hid g r) hids hreq hprogram hvariant hstop hresp

end Grader

/-- The verdict, if the request was a check that has a response. -/
def Grader.verdict? : Except Failure (ExploreResponse ⊕ CheckResponse) → Option Verdict
  | .ok (.inr resp) => some resp.report.verdict
  | _ => none

theorem Grader.exists_of_verdict? {r : Option (Except Failure (ExploreResponse ⊕ CheckResponse))} {v : Verdict}
    (h : r.bind verdict? = some v) : ∃ resp, r = some (.ok (.inr resp)) ∧ resp.report.verdict = v := by
  obtain ⟨response, rfl, hv⟩ := Option.bind_eq_some_iff.mp h
  unfold verdict? at hv
  split at hv
  · exact ⟨_, rfl, Option.some.inj hv⟩
  · cases hv

/-- Once a check has reported a difference, every later check of the same variant that gets a response and does
not stop early reports one, whichever requests between them are cancelled or leave entries that cannot be written. -/
theorem differences_are_found_again (g : Grader σ τ) (hconfig : g.config.stopOnFirst = false)
    (rs : List (Grader.Request × Stamp)) (hids : (rs.map fun r => Text.lower r.2.id).Nodup) (st : GradingState τ)
    (hcorpus : st.corpus.isSome = true) {i j : Nat} (hij : i < j) {req req' : CheckRequest} {stamp stamp' : Stamp}
    {within within' : Conditions} (hreq : rs[i]? = some (.check req within, stamp))
    (hreq' : rs[j]? = some (.check req' within', stamp'))
    (hprogram : Catalogue.lookup req'.program = Catalogue.lookup req.program) (hvariant : req'.variant = req.variant)
    (hstop : req'.stopOnFirst = false) {resp resp' : CheckResponse}
    (hresp : (g.responses rs st)[i]? = some (.ok (.inr resp))) (hverdict : resp.report.verdict = .notEquivalent)
    (hresp' : (g.responses rs st)[j]? = some (.ok (.inr resp'))) : resp'.report.verdict = .notEquivalent := by
  -- on the requests up to the first check; what comes after it is `responses_find`
  induction rs generalizing st i j with
  | nil => cases hreq
  | cons r rs ih =>
      obtain ⟨r, stamp₀⟩ := r
      obtain ⟨hid, hids⟩ := List.nodup_cons.mp hids
      obtain ⟨j, rfl⟩ := Nat.exists_eq_succ_of_ne_zero (Nat.ne_zero_of_lt hij)
      cases i with
      | zero =>
          cases hreq
          obtain ⟨p, v, hanswered⟩ := Grader.answered_of_check (Grader.check_of_serve (Option.some.inj hresp))
          obtain ⟨hp, hv⟩ := hanswered.implementations
          obtain ⟨x, hx, hknown⟩ := hanswered.remembers hverdict hcorpus
          refine Grader.responses_find hx hconfig rs hknown (fun r hr heq => hid ?_) hreq' (hprogram.trans hp)
            (hvariant ▸ hv) hstop hresp'
          exact List.mem_map.mpr ⟨r, hr, heq⟩
      | succ i =>
          exact ih hids _ (Grader.isSome_corpus_serve hcorpus g stamp₀ r) (Nat.lt_of_succ_lt_succ hij) hreq hreq' hresp
            hresp'

/-- The oracle decides nothing. The first check is given the least integer, on which the saturating variant of the
absolute value differs, and the last one is given no input at all. Of the requests between them one cannot write its
entry and one is cancelled; both fail. -/
theorem differences_are_found_again_of_undecided :
    let source : OracleSource Unit Unit := ⟨⟨fun _ s => pure (.error .unknown, s)⟩, fun u => (.ok (some u), u), id⟩
    let g : Grader Unit Unit := ⟨{}, source⟩
    let first : CheckRequest := { program := "abs", variant := "saturating", inputs := [[⟨"x", Int64.minValue⟩]] }
    let last : CheckRequest := { program := "Abs", variant := "saturating", maxIterations := 1 }
    let full : Conditions := { write := fun _ => .error (.text "no space left on device") }
    let cancelled : Conditions := { checking := fun _ => true }
    let rs : List (Grader.Request × Stamp) :=
      [(.check first {}, { id := "a" }), (.explore { program := "abs" } full, { id := "b" }),
        (.check last cancelled, { id := "c" }), (.check last {}, { id := "d" })]
    let st : GradingState Unit := { corpus := some { persistent := true }, shared := () }
    (∃ resp resp', (g.responses rs st)[0]? = some (.ok (.inr resp)) ∧ resp.report.verdict = .notEquivalent ∧
      (g.responses rs st)[3]? = some (.ok (.inr resp')) ∧ resp'.report.verdict = .notEquivalent) ∧
    (g.responses rs st).map (·.isOk) = [true, false, false, true] := by
  intro source g first last full cancelled rs st
  have hverdict : ((g.responses rs st)[0]?.bind Grader.verdict?) = some .notEquivalent := by decide +kernel
  have hanswered : ((g.responses rs st)[3]?.bind Grader.verdict?).isSome = true := by decide +kernel
  obtain ⟨resp, hresp, hdiffers⟩ := Grader.exists_of_verdict? hverdict
  obtain ⟨v, hv⟩ := Option.isSome_iff_exists.mp hanswered
  obtain ⟨resp', hresp', -⟩ := Grader.exists_of_verdict? hv
  have hlookup : ∀ name, Text.lower name = "abs" → Catalogue.lookup name = .ok Catalogue.abs := by
    intro name hname
    rw [Catalogue.lookup, hname]
    rfl
  have hprogram : Catalogue.lookup last.program = Catalogue.lookup first.program :=
    (hlookup "Abs" (by decide +kernel)).trans (hlookup "abs" (by decide +kernel)).symm
  refine ⟨⟨resp, resp', hresp, hdiffers, hresp', ?_⟩, by decide +kernel⟩
  exact differences_are_found_again g rfl rs (by decide +kernel) st rfl (Nat.succ_pos 2) rfl rfl hprogram rfl rfl hresp
    hdiffers hresp'

end Pathwise
