import Pathwise.Proofs.Operands

/-! What the simplifying constructors of words answer. Each of them, on held operands of one width, ends
with a held term of that width, which stands for the operation on what the operands stand for and has no
symbols besides theirs. The rules that return early are facts about single operators; the general
case of the operators on many operands is `collectWith_runs`, for any list of operands that comes to
the right vector. -/

namespace Pathwise

variable {w : Nat} {b : Builder}

namespace Builder

/-- The term is held and has the width. -/
structure HoldsAt (b : Builder) (w : Nat) (t : Term .word) : Prop where
  held : b.Holds t
  width : t.width = w

/-- The term is held, has the width, stands for `f` and has no symbols but those named. -/
structure MeansWord (b : Builder) (t : Term .word) (f : Valuation → BitVec w)
    (names : List (String × Nat)) : Prop extends b.HoldsAt w t where
  bits : ∀ ρ, t.bits ρ w = f ρ
  free : t.free ⊆ names

/-- The condition is held, stands for `f` and has no symbols but those named. -/
structure MeansCond (b : Builder) (p : Cond) (f : Valuation → Bool) (names : List (String × Nat)) :
    Prop where
  held : b.Holds p
  holds : ∀ ρ, p.holds ρ = f ρ
  free : p.free ⊆ names

theorem HoldsAt.mono {c : Builder} (h : b ≤ c) {t : Term .word} (ht : b.HoldsAt w t) : c.HoldsAt w t :=
  ⟨ht.held.mono h, ht.width⟩

theorem MeansWord.mono {c : Builder} (h : b ≤ c) {t : Term .word} {f : Valuation → BitVec w}
    {names : List (String × Nat)} (ht : b.MeansWord t f names) : c.MeansWord t f names :=
  ⟨ht.toHoldsAt.mono h, ht.bits, ht.free⟩

theorem MeansCond.mono {c : Builder} (h : b ≤ c) {p : Cond} {f : Valuation → Bool}
    {names : List (String × Nat)} (hp : b.MeansCond p f names) : c.MeansCond p f names :=
  ⟨hp.held.mono h, hp.holds, hp.free⟩

theorem MeansWord.congr {t : Term .word} {f g : Valuation → BitVec w} {names names' : List (String × Nat)}
    (ht : b.MeansWord t f names) (hfg : ∀ ρ, f ρ = g ρ) (hnames : names ⊆ names') :
    b.MeansWord t g names' :=
  ⟨ht.toHoldsAt, fun ρ => (ht.bits ρ).trans (hfg ρ), List.Subset.trans ht.free hnames⟩

theorem MeansCond.congr {p : Cond} {f g : Valuation → Bool} {names names' : List (String × Nat)}
    (hp : b.MeansCond p f names) (hfg : ∀ ρ, f ρ = g ρ) (hnames : names ⊆ names') :
    b.MeansCond p g names' :=
  ⟨hp.held, fun ρ => (hp.holds ρ).trans (hfg ρ), List.Subset.trans hp.free hnames⟩

theorem HoldsAt.means {t : Term .word} (ht : b.HoldsAt w t) :
    b.MeansWord t (fun ρ => t.bits ρ w) t.free :=
  ⟨ht, fun _ => rfl, List.Subset.refl _⟩

theorem Holds.means {p : Cond} (hp : b.Holds p) : b.MeansCond p (fun ρ => p.holds ρ) p.free :=
  ⟨hp, fun _ => rfl, List.Subset.refl _⟩

/-- The parts of a held term are held and have its width. -/
theorem HoldsAt.parts (hb : b.Consistent) {op : NaryOp} {t u : Term .word} (ht : b.HoldsAt w t)
    (hu : u ∈ t.parts op) : b.HoldsAt w u := by
  unfold Term.parts at hu
  split at hu
  · rename_i i o args
    split_ifs at hu
    · have hwidth : u.width = w := ((hb.proper ht.held).1 u hu).trans ht.width
      exact ⟨hb.children ht.held u hu, hwidth⟩
    · rwa [List.mem_singleton.mp hu]
  · rwa [List.mem_singleton.mp hu]

/-- The parts of a held condition are held, and none of them is a constant unless it is one itself. -/
theorem Holds.condParts (hb : b.Consistent) {op : Connective} {p q : Cond} (hp : b.Holds p)
    (hconst : p.isConst = false) (hq : q ∈ p.condParts op) : b.Holds q ∧ q.isConst = false := by
  unfold Term.condParts at hq
  split at hq
  · split_ifs at hq
    · exact ⟨hb.children hp q hq, (hb.proper hp).2 q hq⟩
    · rw [List.mem_singleton.mp hq]
      exact ⟨hp, hconst⟩
  · rw [List.mem_singleton.mp hq]
    exact ⟨hp, hconst⟩

theorem condParts_ne_nil (hb : b.Consistent) (op : Connective) {p : Cond} (hp : b.Holds p) :
    p.condParts op ≠ [] := by
  unfold Term.condParts
  split
  · split_ifs
    · exact (hb.proper hp).1
    · simp
  · simp

end Builder

namespace Build

open Builder Term

variable {x y : Term .word} {names : List (String × Nat)}

/-! ### Leaves -/

theorem const_runs (hb : b.Consistent) (c : Word) :
    Runs (const c) b fun t c' => c'.MeansWord t (fun _ => c.bits c.width) [] ∧ t.isConst = true := by
  refine (intern_runs hb (d := .const 0 c) trivial trivial).imp fun t c' _ _ ht => ?_
  obtain ⟨hheld, heq⟩ := ht
  rw [heq]
  exact ⟨⟨⟨heq ▸ hheld, rfl⟩, fun _ => rfl, List.Subset.refl _⟩, rfl⟩

/-- A constant of the right bits, whatever the operation it is the result of. -/
theorem const_runs_of_bits (hb : b.Consistent) {c : Word} (hc : c.width = w) {f : Valuation → BitVec w}
    (hf : ∀ ρ, c.bits w = f ρ) : Runs (const c) b fun t c' => c'.MeansWord t f names := by
  subst hc
  exact (const_runs hb c).imp fun t c' _ _ ht => ht.1.congr hf (List.nil_subset _)

theorem int_runs (hb : b.Consistent) (v : Int) (w : Nat) (names : List (String × Nat)) :
    Runs (int v w) b fun t c => c.MeansWord t (fun _ => BitVec.ofInt w v) names :=
  const_runs_of_bits hb (Word.width_ofInt w v) fun _ => Word.bits_ofInt w v

theorem symbol_runs (hb : b.Consistent) (name : String) (w : Nat) :
    Runs (symbol name w) b fun t c =>
      c.MeansWord t (fun ρ => ρ name w) [(name, w)] ∧ t = .symbol t.id name w := by
  refine (intern_runs hb (d := .symbol 0 name w) trivial trivial).imp fun t c _ _ ht => ?_
  obtain ⟨hheld, heq⟩ := ht
  refine ⟨?_, heq⟩
  rw [heq]
  exact ⟨⟨heq ▸ hheld, rfl⟩, fun _ => rfl, List.Subset.refl _⟩

theorem truth_runs (hb : b.Consistent) (v : Bool) (names : List (String × Nat)) :
    Runs (truth v) b fun p c => c.MeansCond p (fun _ => v) names ∧ p.isConst = true := by
  refine (intern_runs hb (d := .truth 0 v) trivial trivial).imp fun p c _ _ hp => ?_
  obtain ⟨hheld, heq⟩ := hp
  rw [heq]
  exact ⟨⟨heq ▸ hheld, fun _ => rfl, List.nil_subset _⟩, rfl⟩

/-- Interning a proper node over held children: the node with its meaning. -/
theorem intern_word_runs (hb : b.Consistent) {d : Term .word} (hproper : d.Proper)
    (hchildren : d.Children b.Holds) (hwidth : d.width = w) (hfree : d.free ⊆ names) :
    Runs (intern d) b fun t c => c.MeansWord t (fun ρ => d.bits ρ w) names := by
  refine (intern_runs hb hproper hchildren).imp fun t c _ _ ht => ?_
  obtain ⟨hheld, heq⟩ := ht
  refine ⟨⟨hheld, ?_⟩, fun ρ => ?_, ?_⟩ <;> rw [heq]
  · rw [width_withId, hwidth]
  · rw [bits_withId]
  · rwa [free_withId]

theorem intern_cond_runs (hb : b.Consistent) {d : Cond} (hproper : d.Proper)
    (hchildren : d.Children b.Holds) (hfree : d.free ⊆ names) :
    Runs (intern d) b fun p c => c.MeansCond p (fun ρ => d.holds ρ) names := by
  refine (intern_runs hb hproper hchildren).imp fun p c _ _ hp => ?_
  obtain ⟨hheld, heq⟩ := hp
  refine ⟨hheld, fun ρ => ?_, ?_⟩ <;> rw [heq]
  · rw [holds_withId]
  · rwa [free_withId]

/-! ### Many operands -/

/-- A list of operands of which at most the last is a constant. -/
theorem collect_runs (hb : b.Consistent) (op : NaryOp) {ts : List (Term .word)}
    (hts : ∀ t ∈ ts, b.HoldsAt w t ∧ t.free ⊆ names)
    (hsome : 2 ≤ ts.length → ∃ t ∈ ts, t.isConst = false) :
    Runs (collect op w ts) b fun t c =>
      c.MeansWord t (fun ρ => op.total (ts.map (Term.bits ρ w))) names := by
  match ts, hts, hsome with
  | [], _, _ => exact const_runs_of_bits hb (op.width_unit w) fun ρ => op.bits_unit w
  | [t], hts, _ =>
      obtain ⟨ht, hfree⟩ := hts t (List.mem_singleton.mpr rfl)
      refine Runs.pure hb (ht.means.congr (fun ρ => ?_) hfree)
      simp
  | t :: u :: ts, hts, hsome =>
      set args := sortById (t :: u :: ts) with hargs
      have hmem : ∀ v ∈ args, b.HoldsAt w v ∧ v.free ⊆ names := fun v hv => hts v (mem_sortById.mp hv)
      have hfirst : firstWidth args = w := by
        have hne : args ≠ [] := List.ne_nil_of_mem (mem_sortById.mpr (List.mem_cons_self (a := t)))
        obtain ⟨v, vs, hcons⟩ := List.exists_cons_of_ne_nil hne
        rw [hcons]
        exact (hmem v (hcons ▸ List.mem_cons_self)).1.width
      obtain ⟨v, hv, hconst⟩ := hsome (by simp)
      have hproper : (Term.nary 0 op args).Proper :=
        ⟨fun v hv => (hmem v hv).1.width.trans hfirst.symm, v, mem_sortById.mpr hv, hconst⟩
      have hfree : (Term.nary 0 op args).free ⊆ names := fun s hs => by
        obtain ⟨v, hv, hs⟩ := mem_freeWords.mp hs
        exact (hmem v hv).2 hs
      refine (intern_word_runs hb hproper (fun v hv => (hmem v hv).1.held) hfirst hfree).imp
        fun t' c _ _ ht' => ht'.congr (fun ρ => ?_) (List.Subset.refl _)
      rw [bits_nary]
      exact op.total_perm ((sortById_perm _).map _)

/-- The folded constant together with operands that are no constants. -/
theorem collectWith_runs (hb : b.Consistent) (op : NaryOp) {c : Word} (hc : c.width = w)
    {rest : List (Term .word)}
    (hrest : ∀ t ∈ rest, b.HoldsAt w t ∧ t.free ⊆ names ∧ t.isConst = false) {f : Valuation → BitVec w}
    (hf : ∀ ρ, op.bits (c.bits w) (op.total (rest.map (Term.bits ρ w))) = f ρ) :
    Runs (collectWith op w c rest) b fun t c' => c'.MeansWord t f names := by
  unfold collectWith MonadTerms.collectWith
  split_ifs with hunit
  · refine (collect_runs hb op (fun t ht => ⟨(hrest t ht).1, (hrest t ht).2.1⟩) fun hlen => ?_).imp
      fun t c' _ _ ht => ht.congr (fun ρ => ?_) (List.Subset.refl _)
    · obtain ⟨t, ht⟩ := List.exists_mem_of_length_pos (by omega : 0 < rest.length)
      exact ⟨t, ht, (hrest t ht).2.2⟩
    · rw [← hf, hunit, op.bits_unit, op.neutral_bits]
  · refine Runs.bind (const_runs hb c) fun t c' hle hc' ht => ?_
    subst hc
    have hts : ∀ u ∈ rest ++ [t], c'.HoldsAt c.width u ∧ u.free ⊆ names := fun u hu => by
      rcases List.mem_append.mp hu with hu | hu
      · exact ⟨(hrest u hu).1.mono hle, (hrest u hu).2.1⟩
      · rw [List.mem_singleton.mp hu]
        exact ⟨ht.1.toHoldsAt, List.Subset.trans ht.1.free (List.nil_subset _)⟩
    refine (collect_runs hc' op hts fun hlen => ?_).imp
      fun u c'' _ _ hu => hu.congr (fun ρ => ?_) (List.Subset.refl _)
    · rw [List.length_append, List.length_singleton] at hlen
      obtain ⟨u, hu⟩ := List.exists_mem_of_length_pos (by omega : 0 < rest.length)
      exact ⟨u, List.mem_append_left _ hu, (hrest u hu).2.2⟩
    · rw [List.map_append, op.total_append, List.map_singleton, NaryOp.total_cons, NaryOp.total_nil,
        op.bits_neutral, ht.1.bits, op.bits_comm, hf]

theorem isOpposite_cases (h : x.isOpposite y = true) :
    (∃ i u, x = .unary i .neg u ∧ y.id = u.id) ∨ ∃ i u, y = .unary i .neg u ∧ x.id = u.id := by
  unfold isOpposite at h
  rcases Bool.or_eq_true_iff.mp h with h | h <;> split at h
  · exact Or.inl ⟨_, _, rfl, beq_iff_eq.mp h⟩
  · cases h
  · exact Or.inr ⟨_, _, rfl, beq_iff_eq.mp h⟩
  · cases h

section Nary

variable (hb : b.Consistent) (hx : b.HoldsAt w x) (hy : b.HoldsAt w y)

include hb hx hy

/-- What is known of the operands once both sides are flattened and the constants are folded. -/
theorem operands_spec (op : NaryOp) {c : Word} {rest : List (Term .word)}
    (h : foldConsts op (op.unit w) (x.parts op ++ y.parts op) = (c, rest)) :
    c.width = w ∧
    (∀ t ∈ rest, b.HoldsAt w t ∧ t.free ⊆ x.free ++ y.free ∧ t.isConst = false) ∧
    ∀ ρ, op.bits (c.bits w) (op.total (rest.map (Term.bits ρ w))) = op.bits (x.bits ρ w) (y.bits ρ w) := by
  have hfold : (foldConsts op (op.unit w) (x.parts op ++ y.parts op)).1 = c ∧
      (foldConsts op (op.unit w) (x.parts op ++ y.parts op)).2 = rest := by rw [h]; exact ⟨rfl, rfl⟩
  refine ⟨?_, fun t ht => ?_, fun ρ => ?_⟩
  · rw [← hfold.1, width_foldConsts, op.width_unit]
  · obtain ⟨hmem, hconst⟩ := mem_foldConsts (hfold.2 ▸ ht)
    rcases List.mem_append.mp hmem with hmem | hmem
    · exact ⟨hx.parts hb hmem,
        List.subset_append_of_subset_left _ (free_subset_of_mem_parts hmem), hconst⟩
    · exact ⟨hy.parts hb hmem,
        List.subset_append_of_subset_right _ (free_subset_of_mem_parts hmem), hconst⟩
  · rw [← hfold.1, ← hfold.2, total_foldConsts op ρ (op.width_unit w), op.bits_unit, op.neutral_bits,
      List.map_append, op.total_append, total_parts, total_parts]

omit hy in
/-- An operand that is answered as it is. -/
theorem left_runs {f : Valuation → BitVec w} (hf : ∀ ρ, x.bits ρ w = f ρ) :
    Runs (pure x) b fun t c => c.MeansWord t f (x.free ++ y.free) :=
  Runs.pure hb (hx.means.congr hf (List.subset_append_left _ _))

omit hx in
theorem right_runs {f : Valuation → BitVec w} (hf : ∀ ρ, y.bits ρ w = f ρ) :
    Runs (pure y) b fun t c => c.MeansWord t f (x.free ++ y.free) :=
  Runs.pure hb (hy.means.congr hf (List.subset_append_right _ _))

theorem add_of_isOpposite (h : x.isOpposite y = true) (ρ : Valuation) : x.bits ρ w + y.bits ρ w = 0#w := by
  rcases isOpposite_cases h with ⟨i, u, rfl, hid⟩ | ⟨i, u, rfl, hid⟩
  · rw [hb.eq_of_id hy.held (hb.children hx.held) hid, bits_unary]
    exact BitVec.add_left_neg _
  · rw [hb.eq_of_id hx.held (hb.children hy.held) hid, bits_unary]
    exact BitVec.add_right_neg _

theorem add_runs :
    Runs (add x y) b fun t c =>
      c.MeansWord t (fun ρ => x.bits ρ w + y.bits ρ w) (x.free ++ y.free) := by
  unfold add MonadTerms.add
  split
  · rename_i a a' ha ha'
    have hwidth := (width_of_const? ha).trans hx.width
    refine const_runs_of_bits hb ((Word.width_add a a').trans hwidth) fun ρ => ?_
    rw [bits_of_const? ha, bits_of_const? ha', Word.bits_add hwidth]
  · split_ifs with hzero hzero' hopp
    · exact right_runs hb hy fun ρ => by rw [bits_of_isZero hzero, BitVec.zero_add]
    · exact left_runs hb hx fun ρ => by rw [bits_of_isZero hzero', BitVec.add_zero]
    · rw [hx.width]
      refine const_runs_of_bits hb (Word.width_zero w) fun ρ => ?_
      rw [Word.bits_zero, add_of_isOpposite hb hx hy hopp]
    · rw [hx.width]
      obtain ⟨hc, hrest, htotal⟩ := operands_spec hb hx hy .add rfl
      refine collectWith_runs hb .add hc (fun t ht => hrest t (mem_of_mem_cancel ht)) fun ρ => ?_
      rw [total_cancel .add isOpposite fun t ht u hu h => add_of_isOpposite hb (hrest t ht).1 (hrest u hu).1 h ρ]
      exact htotal ρ

theorem mul_runs :
    Runs (mul x y) b fun t c =>
      c.MeansWord t (fun ρ => x.bits ρ w * y.bits ρ w) (x.free ++ y.free) := by
  unfold mul MonadTerms.mul
  split_ifs with hone hone' hzero hzero'
  · exact right_runs hb hy fun ρ => by rw [bits_of_isOne hone, BitVec.one_mul]
  · exact left_runs hb hx fun ρ => by rw [bits_of_isOne hone', BitVec.mul_one]
  · exact left_runs hb hx fun ρ => by rw [bits_of_isZero hzero, BitVec.zero_mul]
  · exact right_runs hb hy fun ρ => by rw [bits_of_isZero hzero', BitVec.mul_zero]
  · rw [hx.width]
    obtain ⟨hc, hrest, htotal⟩ := operands_spec hb hx hy .mul rfl
    dsimp only
    split_ifs with hfolded
    · refine const_runs_of_bits hb (Word.width_zero w) fun ρ => ?_
      have hbits : (foldConsts .mul (.one w) (x.parts .mul ++ y.parts .mul)).1.bits w = 0#w :=
        (Word.isZero_iff hc).mp hfolded
      rw [Word.bits_zero]
      refine Eq.trans ?_ (htotal ρ)
      exact hbits.symm ▸ BitVec.zero_mul.symm
    · exact collectWith_runs hb .mul hc hrest htotal

omit hx hy in
/-- Operands of an idempotent operator come to the same without their repetitions. -/
theorem total_dedup {op : NaryOp} (hidem : ∀ v : BitVec w, op.bits v v = v) {ts : List (Term .word)}
    (hts : ∀ t ∈ ts, b.HoldsAt w t) (ρ : Valuation) :
    op.total ((dedup ts).map (Term.bits ρ w)) = op.total (ts.map (Term.bits ρ w)) := by
  have hmem : ∀ t, t ∈ dedup ts ↔ t ∈ ts := fun t =>
    mem_dedup fun t ht u hu h => hb.eq_of_id (hts t ht).held (hts u hu).held h
  refine NaryOp.total_congr hidem fun v => ?_
  simp only [List.mem_map, hmem]

theorem and_runs :
    Runs (and x y) b fun t c =>
      c.MeansWord t (fun ρ => x.bits ρ w &&& y.bits ρ w) (x.free ++ y.free) := by
  unfold and MonadTerms.and
  split_ifs with hzero hzero' hones hones' hsame
  · exact left_runs hb hx fun ρ => by rw [bits_of_isZero hzero, BitVec.zero_and]
  · exact right_runs hb hy fun ρ => by rw [bits_of_isZero hzero', BitVec.and_zero]
  · exact right_runs hb hy fun ρ => by rw [bits_of_isOnes hx.width hones, BitVec.allOnes_and]
  · exact left_runs hb hx fun ρ => by rw [bits_of_isOnes hy.width hones', BitVec.and_allOnes]
  · exact left_runs hb hx fun ρ => by rw [hb.eq_of_id hx.held hy.held hsame, BitVec.and_self]
  · rw [hx.width]
    obtain ⟨hc, hrest, htotal⟩ := operands_spec hb hx hy .and rfl
    dsimp only
    split_ifs with hfolded
    · refine const_runs_of_bits hb (Word.width_zero w) fun ρ => ?_
      have hbits : (foldConsts .and (.ones w) (x.parts .and ++ y.parts .and)).1.bits w = 0#w :=
        (Word.isZero_iff hc).mp hfolded
      rw [Word.bits_zero]
      refine Eq.trans ?_ (htotal ρ)
      exact hbits.symm ▸ BitVec.zero_and.symm
    · refine collectWith_runs hb .and hc (fun t ht => hrest t (mem_of_mem_dedup ht)) fun ρ => ?_
      rw [total_dedup hb (fun v => BitVec.and_self) fun t ht => (hrest t ht).1]
      exact htotal ρ

theorem or_runs :
    Runs (or x y) b fun t c =>
      c.MeansWord t (fun ρ => x.bits ρ w ||| y.bits ρ w) (x.free ++ y.free) := by
  unfold or MonadTerms.or
  split_ifs with hzero hzero' hones hones' hsame
  · exact right_runs hb hy fun ρ => by rw [bits_of_isZero hzero, BitVec.zero_or]
  · exact left_runs hb hx fun ρ => by rw [bits_of_isZero hzero', BitVec.or_zero]
  · exact left_runs hb hx fun ρ => by rw [bits_of_isOnes hx.width hones, BitVec.allOnes_or]
  · exact right_runs hb hy fun ρ => by rw [bits_of_isOnes hy.width hones', BitVec.or_allOnes]
  · exact left_runs hb hx fun ρ => by rw [hb.eq_of_id hx.held hy.held hsame, BitVec.or_self]
  · rw [hx.width]
    obtain ⟨hc, hrest, htotal⟩ := operands_spec hb hx hy .or rfl
    dsimp only
    split_ifs with hfolded
    · refine const_runs_of_bits hb (Word.width_ones w) fun ρ => ?_
      have hbits : (foldConsts .or (.zero w) (x.parts .or ++ y.parts .or)).1.bits w = BitVec.allOnes w :=
        (Word.isOnes_iff hc).mp hfolded
      rw [Word.bits_ones]
      refine Eq.trans ?_ (htotal ρ)
      exact hbits.symm ▸ BitVec.allOnes_or.symm
    · refine collectWith_runs hb .or hc (fun t ht => hrest t (mem_of_mem_dedup ht)) fun ρ => ?_
      rw [total_dedup hb (fun v => BitVec.or_self) fun t ht => (hrest t ht).1]
      exact htotal ρ

theorem xor_runs :
    Runs (xor x y) b fun t c =>
      c.MeansWord t (fun ρ => x.bits ρ w ^^^ y.bits ρ w) (x.free ++ y.free) := by
  unfold xor MonadTerms.xor
  split_ifs with hzero hzero' hsame
  · exact right_runs hb hy fun ρ => by rw [bits_of_isZero hzero, BitVec.zero_xor]
  · exact left_runs hb hx fun ρ => by rw [bits_of_isZero hzero', BitVec.xor_zero]
  · rw [hx.width]
    refine const_runs_of_bits hb (Word.width_zero w) fun ρ => ?_
    rw [Word.bits_zero, hb.eq_of_id hx.held hy.held hsame, BitVec.xor_self]
  · rw [hx.width]
    obtain ⟨hc, hrest, htotal⟩ := operands_spec hb hx hy .xor rfl
    refine collectWith_runs hb .xor hc (fun t ht => hrest t (mem_of_mem_cancel ht)) fun ρ => ?_
    rw [total_cancel .xor (fun t u => t.id == u.id) fun t ht u hu h => ?_]
    · exact htotal ρ
    · rw [hb.eq_of_id (hrest t ht).1.held (hrest u hu).1.held (beq_iff_eq.mp h)]
      exact BitVec.xor_self

theorem nary_runs (op : NaryOp) :
    Runs (nary op x y) b fun t c =>
      c.MeansWord t (fun ρ => op.bits (x.bits ρ w) (y.bits ρ w)) (x.free ++ y.free) := by
  cases op with
  | and => exact and_runs hb hx hy
  | or => exact or_runs hb hx hy
  | xor => exact xor_runs hb hx hy
  | add => exact add_runs hb hx hy
  | mul => exact mul_runs hb hx hy

end Nary

/-! ### Operators whose operands keep their places -/

section Binary

variable (hb : b.Consistent) (hx : b.HoldsAt w x) (hy : b.HoldsAt w y)

include hb hx hy

theorem intern_binary_runs (op : BinaryOp) (hconst : x.isConst = false ∨ y.isConst = false) :
    Runs (intern (.binary 0 op x y)) b fun t c =>
      c.MeansWord t (fun ρ => op.bits (x.bits ρ w) (y.bits ρ w)) (x.free ++ y.free) :=
  intern_word_runs hb ⟨hy.width.trans hx.width.symm, hconst⟩ ⟨hx.held, hy.held⟩ hx.width
    (List.Subset.refl _)

omit hb hx hy in
theorem bits_shift {op : BinaryOp} (hop : op = .shl ∨ op = .lshr ∨ op = .ashr) {a c : Word}
    (ha : a.width = w) (hc : c.width = w) :
    (op.apply a c).width = w ∧ (op.apply a c).bits w = op.bits (a.bits w) (c.bits w) := by
  rcases hop with rfl | rfl | rfl
  · exact ⟨(Word.width_shl a _).trans ha, by rw [BinaryOp.bits, Word.toNat_bits hc]; exact Word.bits_shl ha _⟩
  · exact ⟨(Word.width_lshr a _).trans ha, by rw [BinaryOp.bits, Word.toNat_bits hc]; exact Word.bits_lshr ha _⟩
  · exact ⟨(Word.width_ashr a _).trans ha, by rw [BinaryOp.bits, Word.toNat_bits hc]; exact Word.bits_ashr ha _⟩

omit hb hx hy in
/-- Nothing is shifted by zero. -/
theorem bits_shift_zero {op : BinaryOp} (hop : op = .shl ∨ op = .lshr ∨ op = .ashr) (v : BitVec w) :
    op.bits v 0#w = v := by
  rcases hop with rfl | rfl | rfl <;> simp [BinaryOp.bits]

theorem shift_runs {op : BinaryOp} (hop : op = .shl ∨ op = .lshr ∨ op = .ashr) :
    Runs (shift op x y) b fun t c =>
      c.MeansWord t (fun ρ => op.bits (x.bits ρ w) (y.bits ρ w)) (x.free ++ y.free) := by
  unfold shift MonadTerms.shift
  cases hamount : y.const? with
  | none => exact intern_binary_runs hb hx hy op (Or.inr (const?_eq_none_iff.mp hamount))
  | some amount =>
      have hwidth : amount.width = w := (width_of_const? hamount).trans hy.width
      dsimp only
      by_cases hzero : amount.isZero = true
      · rw [if_pos hzero]
        refine left_runs hb hx fun ρ => ?_
        rw [bits_of_const? hamount, (Word.isZero_iff hwidth).mp hzero, bits_shift_zero hop]
      · rw [if_neg hzero]
        cases hc : x.const? with
        | some c =>
            obtain ⟨hw, hbits⟩ := bits_shift hop ((width_of_const? hc).trans hx.width) hwidth
            refine const_runs_of_bits hb hw fun ρ => ?_
            rw [hbits, bits_of_const? hc, bits_of_const? hamount]
        | none =>
            dsimp only
            split_ifs with hout
            · rw [hx.width] at hout ⊢
              refine const_runs_of_bits hb (Word.width_zero w) fun ρ => ?_
              rw [Word.bits_zero, bits_of_const? hamount]
              -- Only the two shifts that fill with zeros take this way.
              rcases hop with rfl | rfl | rfl
              · rw [BinaryOp.bits, Word.toNat_bits hwidth, BitVec.shiftLeft_eq_zero hout.1]
              · rw [BinaryOp.bits, Word.toNat_bits hwidth, BitVec.ushiftRight_eq_zero hout.1]
              · exact absurd rfl hout.2
            · exact intern_binary_runs hb hx hy op (Or.inl (const?_eq_none_iff.mp hc))

omit hb hx hy in
/-- Where the pair of constants is not folded, one of the two is none. -/
theorem not_const_of_not_both (h : ∀ a a', x.const? = some a → y.const? = some a' → False) :
    x.isConst = false ∨ y.isConst = false := by
  cases hc : x.const? with
  | none => exact Or.inl (const?_eq_none_iff.mp hc)
  | some a =>
      cases hc' : y.const? with
      | none => exact Or.inr (const?_eq_none_iff.mp hc')
      | some a' => exact (h a a' hc hc').elim

theorem sdiv_runs :
    Runs (sdiv x y) b fun t c =>
      c.MeansWord t (fun ρ => (x.bits ρ w).smtSDiv (y.bits ρ w)) (x.free ++ y.free) := by
  unfold sdiv MonadTerms.sdiv
  split
  · rename_i a a' ha ha'
    have hwidth := (width_of_const? ha).trans hx.width
    have hwidth' := (width_of_const? ha').trans hy.width
    refine const_runs_of_bits hb ((Word.width_sdiv a a').trans hwidth) fun ρ => ?_
    rw [bits_of_const? ha, bits_of_const? ha', Word.bits_sdiv hwidth hwidth']
  · rename_i hnot
    split_ifs with hone
    · refine left_runs hb hx fun ρ => ?_
      rw [bits_of_isOne hone, Word.smtSDiv_one]
    · exact intern_binary_runs hb hx hy .sdiv (not_const_of_not_both hnot)

theorem srem_runs :
    Runs (srem x y) b fun t c =>
      c.MeansWord t (fun ρ => (x.bits ρ w).srem (y.bits ρ w)) (x.free ++ y.free) := by
  unfold srem MonadTerms.srem
  split
  · rename_i a a' ha ha'
    have hwidth := (width_of_const? ha).trans hx.width
    have hwidth' := (width_of_const? ha').trans hy.width
    refine const_runs_of_bits hb ((Word.width_srem a a').trans hwidth) fun ρ => ?_
    rw [bits_of_const? ha, bits_of_const? ha', Word.bits_srem hwidth hwidth']
  · rename_i hnot
    split_ifs with hnone
    · rw [hx.width]
      refine const_runs_of_bits hb (Word.width_zero w) fun ρ => ?_
      rw [Word.bits_zero]
      rcases hnone with hsame | hone
      · rw [hb.eq_of_id hx.held hy.held hsame, BitVec.srem_self]
      · rw [bits_of_isOne hone, BitVec.srem_one]
    · exact intern_binary_runs hb hx hy .srem (not_const_of_not_both hnot)

theorem binary_runs (op : BinaryOp) :
    Runs (binary op x y) b fun t c =>
      c.MeansWord t (fun ρ => op.bits (x.bits ρ w) (y.bits ρ w)) (x.free ++ y.free) := by
  cases op with
  | shl => exact shift_runs hb hx hy (by simp)
  | lshr => exact shift_runs hb hx hy (by simp)
  | ashr => exact shift_runs hb hx hy (by simp)
  | sdiv => exact sdiv_runs hb hx hy
  | srem => exact srem_runs hb hx hy

end Binary

theorem ite_runs (hb : b.Consistent) {guard : Cond} (hguard : b.Holds guard) (hx : b.HoldsAt w x)
    (hy : b.HoldsAt w y) :
    Runs (ite guard x y) b fun t c =>
      c.MeansWord t (fun ρ => if guard.holds ρ then x.bits ρ w else y.bits ρ w)
        (guard.free ++ x.free ++ y.free) := by
  unfold ite MonadTerms.ite
  split
  · rename_i hg
    refine Runs.pure hb (hx.means.congr (fun ρ => by rw [holds_of_truth? hg]; rfl) ?_)
    exact List.subset_append_of_subset_left _ (List.subset_append_right _ _)
  · rename_i hg
    refine Runs.pure hb (hy.means.congr (fun ρ => by rw [holds_of_truth? hg]; rfl) ?_)
    exact List.subset_append_right _ _
  · rename_i hg
    split_ifs with hsame
    · refine Runs.pure hb (hx.means.congr (fun ρ => ?_) ?_)
      · rw [hb.eq_of_id hx.held hy.held hsame, ite_self]
      · exact List.subset_append_of_subset_left _ (List.subset_append_right _ _)
    · exact intern_word_runs hb ⟨hy.width.trans hx.width.symm, truth?_eq_none_iff.mp hg⟩
        ⟨hguard, hx.held, hy.held⟩ hx.width (List.Subset.refl _)

theorem bitNot_runs (hb : b.Consistent) (hx : b.HoldsAt w x) :
    Runs (bitNot x) b fun t c => c.MeansWord t (fun ρ => ~~~x.bits ρ w) x.free := by
  have hnode : x.isConst = false →
      Runs (intern (.unary 0 .not x)) b fun t c => c.MeansWord t (fun ρ => ~~~x.bits ρ w) x.free :=
    fun hconst => intern_word_runs hb hconst hx.held hx.width (List.Subset.refl _)
  unfold bitNot MonadTerms.bitNot
  split
  · rename_i i c
    exact const_runs_of_bits hb ((Word.width_not c).trans hx.width) fun ρ => Word.bits_not hx.width
  · rename_i i u
    have hu : b.HoldsAt w u := ⟨hb.children hx.held, hx.width⟩
    refine Runs.pure hb (hu.means.congr (fun ρ => ?_) (List.Subset.refl _))
    rw [bits_unary]
    exact BitVec.not_not.symm
  · rename_i hconst _
    refine hnode ?_
    cases x with
    | const i c => exact absurd rfl (hconst i c)
    | _ => rfl

end Build
end Pathwise
