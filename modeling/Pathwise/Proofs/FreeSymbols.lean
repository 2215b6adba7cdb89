import Mathlib.Data.List.Sort
import Pathwise.Proofs.Interning
import Pathwise.Term.Symbols

/-! The symbols that a walk finds. A walk visits every node once, by its number, so a node that was visited
before is passed over whatever lies under it. In a consistent builder this loses nothing: the numbers of
children are lower than that of their node, and a number belongs to one held term, so everything under a
visited node has been walked through already. Hence `Term.symbols` lists the free symbols of a held term, each
under the number of the held symbol. -/

namespace Pathwise

open Builder

/-- The symbol as a term. -/
def Symbol.term (s : Symbol) : Term .word := .symbol s.id s.name s.width

/-- Name and width of the symbol. -/
def Symbol.sort (s : Symbol) : String × Nat := (s.name, s.width)

namespace Walk

variable {b : Builder} {w w' w'' : Walk} {names names' : List (String × Nat)} {n : Nat}

/-- Under every visited term with a number below `n` all symbols have been found. -/
def Before (b : Builder) (n : Nat) (w : Walk) : Prop :=
  ∀ {k : Ty} (u : Term k), b.Holds u → u.id < n → w.visited.contains u.id = true → u.free ⊆ w.found.map Symbol.sort

/-- The walk has gone on through terms with these symbols: it found them and no others, and under every term
that it visited on the way all symbols have been found. -/
structure Goes (b : Builder) (w w' : Walk) (names : List (String × Nat)) : Prop where
  keeps : w.found ⊆ w'.found
  held : ∀ s ∈ w'.found, s ∈ w.found ∨ b.Holds s.term ∧ s.sort ∈ names
  finds : names ⊆ w'.found.map Symbol.sort
  through : ∀ {k : Ty} (u : Term k), b.Holds u → w'.visited.contains u.id = true →
    w.visited.contains u.id = true ∨ u.free ⊆ w'.found.map Symbol.sort

theorem Goes.refl (b : Builder) (w : Walk) : Goes b w w [] :=
  ⟨fun _ hs => hs, fun _ hs => Or.inl hs, List.nil_subset _, fun _ _ hu => Or.inl hu⟩

theorem Goes.sorts_subset (h : Goes b w w' names) : w.found.map Symbol.sort ⊆ w'.found.map Symbol.sort :=
  List.map_subset _ h.keeps

theorem Goes.before (h : Goes b w w' names) (hw : w.Before b n) : w'.Before b n := by
  intro k u hu hn hvisited
  rcases h.through u hu hvisited with hvisited | hfree
  · exact List.Subset.trans (hw u hu hn hvisited) h.sorts_subset
  · exact hfree

theorem Goes.trans (h : Goes b w w' names) (h' : Goes b w' w'' names') : Goes b w w'' (names ++ names') where
  keeps := List.Subset.trans h.keeps h'.keeps
  held s hs := by
    rcases h'.held s hs with hs | ⟨hheld, hmem⟩
    · exact (h.held s hs).imp_right fun ⟨hheld, hmem⟩ => ⟨hheld, List.mem_append_left _ hmem⟩
    · exact Or.inr ⟨hheld, List.mem_append_right _ hmem⟩
  finds := List.append_subset.mpr ⟨List.Subset.trans h.finds h'.sorts_subset, h'.finds⟩
  through u hu hvisited := by
    rcases h'.through u hu hvisited with hvisited | hfree
    · exact (h.through u hu hvisited).imp_right fun hfree => List.Subset.trans hfree h'.sorts_subset
    · exact Or.inr hfree

theorem Goes.congr (h : Goes b w w' names) (hsame : ∀ x, x ∈ names ↔ x ∈ names') : Goes b w w' names' where
  keeps := h.keeps
  held s hs := (h.held s hs).imp_right fun ⟨hheld, hmem⟩ => ⟨hheld, (hsame _).mp hmem⟩
  finds _ hx := h.finds ((hsame _).mpr hx)
  through := h.through

end Walk

namespace Term

variable {b : Builder} {k : Ty}

/-! ### Nodes and the terms below them -/

/-- The terms right below a node. The guard of a choice comes last. -/
def subterms {k : Ty} : Term k → List (Σ k, Term k)
  | .symbol .. | .const .. | .truth .. => []
  | .ite _ cond yes no => [⟨_, yes⟩, ⟨_, no⟩, ⟨_, cond⟩]
  | .unary _ _ arg => [⟨_, arg⟩]
  | .binary _ _ left right => [⟨_, left⟩, ⟨_, right⟩]
  | .nary _ _ args => args.map (⟨_, ·⟩)
  | .not _ arg => [⟨_, arg⟩]
  | .compare _ _ left right => [⟨_, left⟩, ⟨_, right⟩]
  | .junction _ _ args => args.map (⟨_, ·⟩)

/-- The symbol that the node is. -/
def symbol? {k : Ty} : Term k → Option Symbol
  | .symbol id name width => some ⟨id, name, width⟩
  | _ => none

theorem eq_term_of_symbol? {t : Term k} {s : Symbol} (h : t.symbol? = some s) :
    (⟨k, t⟩ : Σ k, Term k) = ⟨.word, s.term⟩ := by
  cases t with
  | symbol => cases h; rfl
  | _ => cases h

theorem forall_mem_subterms {P : ∀ {k : Ty}, Term k → Prop} {t : Term k} (h : t.Children P) :
    ∀ u ∈ t.subterms, P u.2 := by
  cases t with
  | symbol | const | truth => exact List.forall_mem_nil _
  | ite => simpa [subterms, Children, and_comm, and_left_comm] using h
  | nary | junction => exact List.forall_mem_map.mpr h
  | _ => simpa [subterms, Children] using h

/-- A symbol that occurs in a term is the node or occurs below it. -/
theorem mem_free_iff {t : Term k} {x : String × Nat} :
    x ∈ t.free ↔ (∃ s, t.symbol? = some s ∧ s.sort = x) ∨ ∃ u ∈ t.subterms, x ∈ u.2.free := by
  cases t with
  | symbol i name width => simp [free, symbol?, subterms, Symbol.sort, eq_comm]
  | const | truth => simp [free, symbol?, subterms]
  | ite => simp [free, symbol?, subterms, or_comm, or_left_comm]
  | unary | not => simp [free, symbol?, subterms]
  | binary | compare => simp [free, symbol?, subterms]
  | nary => simp [free, symbol?, subterms, mem_freeWords]
  | junction => simp [free, symbol?, subterms, mem_freeConds]

end Term

/-! ### The walk -/

namespace Walk

/-- Notes down that a term is visited and, if it is one, the symbol. -/
def enter {k : Ty} (w : Walk) (t : Term k) : Walk := ⟨w.visited.insert t.id, t.symbol?.toList ++ w.found⟩

/-- Walks on through terms, the last one first. -/
def through (w : Walk) (ts : List (Σ k, Term k)) : Walk := ts.foldr (fun t w => t.2.visit w) w

theorem contains_enter {k : Ty} {w : Walk} {t : Term k} {i : Nat} :
    (w.enter t).visited.contains i = true ↔ t.id = i ∨ w.visited.contains i = true := by
  rw [enter, Std.TreeSet.contains_insert, Bool.or_eq_true, beq_iff_eq, Nat.compare_eq_eq]

end Walk

namespace Term

open Walk

variable {b : Builder} {k : Ty}

theorem visitWords_eq (w : Walk) (ts : List (Term .word)) : visitWords w ts = w.through (ts.map (⟨_, ·⟩)) := by
  induction ts with
  | nil => rfl
  | cons t ts ih => rw [visitWords, ih]; rfl

theorem visitConds_eq (w : Walk) (ps : List Cond) : visitConds w ps = w.through (ps.map (⟨_, ·⟩)) := by
  induction ps with
  | nil => rfl
  | cons p ps ih => rw [visitConds, ih]; rfl

theorem visit_of_visited {w : Walk} {t : Term k} (h : w.visited.contains t.id = true) : t.visit w = w := by
  rw [visit.eq_def, if_pos h]

/-- A term that is new is entered, and then the walk goes through the terms below it. -/
theorem visit_of_new {w : Walk} {t : Term k} (h : ¬w.visited.contains t.id = true) :
    t.visit w = (w.enter t).through t.subterms := by
  rw [visit.eq_def, if_neg h]
  cases t with
  | nary i op args => exact visitWords_eq _ args
  | junction i op args => exact visitConds_eq _ args
  | _ => rfl

/-- What walking through a held term does, if everything under visited terms of lower numbers was found. -/
def Walked (b : Builder) (t : Term k) : Prop :=
  ∀ (w : Walk) (n : Nat), t.id < n → w.Before b n → Goes b w (t.visit w) t.free

theorem through_goes {n : Nat} {ts : List (Σ k, Term k)} (hts : ∀ t ∈ ts, t.2.Walked b ∧ t.2.id < n) {w : Walk}
    (hw : w.Before b n) : Goes b w (w.through ts) (ts.flatMap (·.2.free)) := by
  induction ts with
  | nil => exact .refl b w
  | cons t ts ih =>
      rw [List.forall_mem_cons] at hts
      have hrest := ih hts.2
      refine (hrest.trans (hts.1.1 _ n hts.1.2 (hrest.before hw))).congr fun x => ?_
      rw [List.flatMap_cons, List.mem_append, List.mem_append, or_comm]

/-- A held term that is entered counts as walked through once the walk has gone through the terms below it. -/
theorem goes_of_enter (hb : b.Consistent) {t : Term k} (ht : b.Holds t) {w w' : Walk}
    (h : Goes b (w.enter t) w' (t.subterms.flatMap (·.2.free))) : Goes b w w' t.free := by
  have hfinds : t.free ⊆ w'.found.map Symbol.sort := by
    intro x hx
    rcases mem_free_iff.mp hx with ⟨s, hs, rfl⟩ | ⟨u, hu, hx⟩
    · have hfound : s ∈ (w.enter t).found := List.mem_append_left _ (Option.mem_toList.mpr hs)
      exact List.mem_map_of_mem (h.keeps hfound)
    · exact h.finds (List.mem_flatMap.mpr ⟨u, hu, hx⟩)
  refine ⟨fun s hs => h.keeps (List.mem_append_right _ hs), fun s hs => ?_, hfinds, fun u hu hvisited => ?_⟩
  · rcases h.held s hs with hs | ⟨hheld, hbelow⟩
    · rcases List.mem_append.mp hs with hs | hs
      · have hs : t.symbol? = some s := Option.mem_toList.mp hs
        have hfree : s.sort ∈ t.free := mem_free_iff.mpr (Or.inl ⟨s, hs, rfl⟩)
        cases eq_term_of_symbol? hs
        exact Or.inr ⟨ht, hfree⟩
      · exact Or.inl hs
    · exact Or.inr ⟨hheld, mem_free_iff.mpr (Or.inr (List.mem_flatMap.mp hbelow))⟩
  · rcases h.through u hu hvisited with hvisited | hfree
    · rcases contains_enter.mp hvisited with heq | hvisited
      · cases hb.distinct ht hu heq
        exact Or.inr hfinds
      · exact Or.inl hvisited
    · exact Or.inr hfree

theorem walked (hb : b.Consistent) (t : Term k) : b.Holds t → t.Walked b := by
  induction t using induct_children with
  | h t ih =>
      intro ht w n hn hw
      by_cases hvisited : w.visited.contains t.id = true
      · rw [visit_of_visited hvisited]
        exact ⟨fun _ hs => hs, fun _ hs => Or.inl hs, hw t ht hn hvisited, fun _ _ hu => Or.inl hu⟩
      · have hbefore : (w.enter t).Before b t.id := by
          intro l u hu hlt hmem
          have hold : w.visited.contains u.id = true := (contains_enter.mp hmem).resolve_left (by omega)
          refine List.Subset.trans (hw u hu (hlt.trans hn) hold) (List.map_subset _ ?_)
          exact fun s hs => List.mem_append_right _ hs
        have hbelow : ∀ u ∈ t.subterms, u.2.Walked b ∧ u.2.id < t.id := by
          intro u hu
          obtain ⟨hheld, hlt⟩ := forall_mem_subterms (hb.closed ht) u hu
          exact ⟨forall_mem_subterms ih u hu hheld, hlt⟩
        rw [visit_of_new hvisited]
        exact goes_of_enter hb ht (through_goes hbelow hbefore)

/-! ### The list of symbols -/

theorem insertByName_eq : Symbol.insertByName = List.orderedInsert fun s s' => s.name ≤ s'.name := by
  funext s ss
  induction ss with
  | nil => rfl
  | cons u ss ih => rw [Symbol.insertByName, List.orderedInsert_cons, ih]

theorem symbols_eq_insertionSort (t : Term k) :
    t.symbols = (t.visit {}).found.reverse.insertionSort fun s s' => s.name ≤ s'.name := by
  rw [symbols, insertByName_eq, List.insertionSort]

theorem symbols_perm (t : Term k) : t.symbols.Perm (t.visit {}).found := by
  rw [symbols_eq_insertionSort]
  exact (List.perm_insertionSort _ _).trans (List.reverse_perm _)

theorem mem_symbols {t : Term k} {s : Symbol} : s ∈ t.symbols ↔ s ∈ (t.visit {}).found := t.symbols_perm.mem_iff

theorem visit_goes (hb : b.Consistent) {t : Term k} (ht : b.Holds t) : Goes b {} (t.visit {}) t.free := by
  refine walked hb t ht {} (t.id + 1) (Nat.lt_succ_self _) ?_
  intro l u _ _ hvisited
  rw [Std.TreeSet.contains_emptyc] at hvisited
  cases hvisited

/-- Every listed symbol is held and occurs in the term. -/
theorem held_of_mem_symbols (hb : b.Consistent) {t : Term k} (ht : b.Holds t) {s : Symbol} (hs : s ∈ t.symbols) :
    b.Holds s.term ∧ s.sort ∈ t.free :=
  ((visit_goes hb ht).held s (mem_symbols.mp hs)).resolve_left List.not_mem_nil

/-- Every symbol of the term is listed. -/
theorem exists_mem_symbols (hb : b.Consistent) {t : Term k} (ht : b.Holds t) {x : String × Nat} (hx : x ∈ t.free) :
    ∃ s ∈ t.symbols, s.sort = x := by
  obtain ⟨s, hs, hsort⟩ := List.mem_map.mp ((visit_goes hb ht).finds hx)
  exact ⟨s, mem_symbols.mpr hs, hsort⟩

end Term

/-- A held symbol is known by its name and width. -/
theorem Builder.Consistent.eq_of_sort {b : Builder} (hb : b.Consistent) {s s' : Symbol} (hs : b.Holds s.term)
    (hs' : b.Holds s'.term) (h : s.sort = s'.sort) : s = s' := by
  obtain ⟨hname, hwidth⟩ := Prod.mk.inj h
  have halike : s.term.alike s'.term = true := by
    simp [Symbol.term, Term.alike, hname, hwidth]
  have heq := hb.shared hs hs' halike
  cases s
  cases s'
  cases heq
  rfl

/-- The numbers that a held term lists are those of the held symbols that occur in it. -/
theorem Term.mem_symbol_ids {b : Builder} (hb : b.Consistent) {k : Ty} {t : Term k} (ht : b.Holds t) {i : Nat} :
    i ∈ t.symbols.map (·.id) ↔ ∃ s : Symbol, s.id = i ∧ b.Holds s.term ∧ s.sort ∈ t.free := by
  rw [List.mem_map]
  constructor
  · rintro ⟨s, hs, hid⟩
    exact ⟨s, hid, held_of_mem_symbols hb ht hs⟩
  · rintro ⟨s, hid, hheld, hfree⟩
    obtain ⟨s', hs', hsort⟩ := exists_mem_symbols hb ht hfree
    have heq := hb.eq_of_sort (held_of_mem_symbols hb ht hs').1 hheld hsort
    exact ⟨s, heq ▸ hs', hid⟩

/-! ### Meaning -/

/-- Two valuations agree on the symbols. -/
def Valuation.Agree (ρ σ : Valuation) (names : List (String × Nat)) : Prop := ∀ x ∈ names, ρ x.1 x.2 = σ x.1 x.2

theorem Valuation.Agree.mono {ρ σ : Valuation} {names names' : List (String × Nat)} (h : ρ.Agree σ names)
    (hsub : names' ⊆ names) : ρ.Agree σ names' := fun x hx => h x (hsub hx)

namespace Term

variable {b : Builder} {ρ σ : Valuation}

/-- What a term means at its own width is the same under both valuations. -/
def Steady (ρ σ : Valuation) : {k : Ty} → Term k → Prop
  | .word, t => t.bits ρ t.width = t.bits σ t.width
  | .bool, p => p.holds ρ = p.holds σ

theorem Steady.bits {t : Term .word} (h : Steady ρ σ t) {w : Nat} (hw : t.width = w) : t.bits ρ w = t.bits σ w := by
  subst hw
  exact h

/-- The meaning of a held term depends on its free symbols only. -/
theorem steady (hb : b.Consistent) {k : Ty} (t : Term k) (ht : b.Holds t) (h : ρ.Agree σ t.free) : Steady ρ σ t := by
  induction t using Term.induct with
  | symbol i name width => exact h (name, width) (List.mem_singleton.mpr rfl)
  | const i c => rfl
  | truth i v => rfl
  | ite i cond yes no hcond hyes hno =>
      obtain ⟨hc, hy, hn⟩ := hb.children ht
      have hguard : cond.holds ρ = cond.holds σ := hcond hc (h.mono (by simp [free]))
      have hyes' := hyes hy (h.mono (by simp [free]))
      have hno' := (hno hn (h.mono (by simp [free]))).bits (hb.proper ht).1
      change (ite i cond yes no).bits ρ yes.width = (ite i cond yes no).bits σ yes.width
      rw [bits_ite, bits_ite, hguard, hno', hyes'.bits rfl]
  | unary i op arg harg =>
      change (unary i op arg).bits ρ arg.width = (unary i op arg).bits σ arg.width
      rw [bits_unary, bits_unary, (harg (hb.children ht) h).bits rfl]
  | binary i op left right hleft hright =>
      obtain ⟨hl, hr⟩ := hb.children ht
      change (binary i op left right).bits ρ left.width = (binary i op left right).bits σ left.width
      rw [bits_binary, bits_binary, (hleft hl (h.mono (List.subset_append_left _ _))).bits rfl,
        (hright hr (h.mono (List.subset_append_right _ _))).bits (hb.proper ht).1]
  | nary i op args hargs =>
      have hheld : ∀ t ∈ args, b.Holds t := hb.children ht
      have hmap : args.map (Term.bits ρ (firstWidth args)) = args.map (Term.bits σ (firstWidth args)) := by
        refine List.map_congr_left fun t hmem =>
          (hargs t hmem (hheld t hmem) (h.mono ?_)).bits ((hb.proper ht).1 t hmem)
        exact fun x hx => mem_freeWords.mpr ⟨t, hmem, hx⟩
      change (nary i op args).bits ρ (firstWidth args) = (nary i op args).bits σ (firstWidth args)
      rw [bits_nary, bits_nary, hmap]
  | not i arg harg =>
      have harg' : arg.holds ρ = arg.holds σ := harg (hb.children ht) h
      change (not i arg).holds ρ = (not i arg).holds σ
      rw [holds_not, holds_not, harg']
  | compare i op left right hleft hright =>
      obtain ⟨hl, hr⟩ := hb.children ht
      change (compare i op left right).holds ρ = (compare i op left right).holds σ
      rw [holds_compare, holds_compare, (hleft hl (h.mono (List.subset_append_left _ _))).bits rfl,
        (hright hr (h.mono (List.subset_append_right _ _))).bits (hb.proper ht).1]
  | junction i op args hargs =>
      have hheld : ∀ p ∈ args, b.Holds p := hb.children ht
      have hmap : args.map (Term.holds ρ) = args.map (Term.holds σ) := by
        refine List.map_congr_left fun p hmem => hargs p hmem (hheld p hmem) (h.mono ?_)
        exact fun x hx => mem_freeConds.mpr ⟨p, hmem, hx⟩
      change (junction i op args).holds ρ = (junction i op args).holds σ
      rw [holds_junction, holds_junction, hmap]

theorem holds_congr (hb : b.Consistent) {p : Cond} (hp : b.Holds p) (h : ρ.Agree σ p.free) :
    p.holds ρ = p.holds σ :=
  steady hb p hp h

end Term
end Pathwise
