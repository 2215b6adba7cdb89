import Pathwise.Proofs.CachedAnswers
import Pathwise.Proofs.FormulaShapes
import Pathwise.Proofs.TidyBuilders

/-! Formulas are told apart by their texts. A text is read from the left: a name or number goes on as long as its
characters do, an operand in brackets ends with the bracket that closes it, and what stands between two operands is
the sign of the operator, which no two operators share. A formula ends where nothing, a bracket or a comma follows.
So two texts that go on in such ways are those of one tree, with two exceptions: a name may be that of a truth
value, which the sort of the formula tells apart, and a number does not tell its width.

An operator without operands, or with one, could not be told from its operand; interned terms have two or more. -/

namespace Pathwise

open Text

variable {w : Nat} {r r' : List Char}

/-! ### Reading texts -/

namespace AnyTerm

variable {t t' : AnyTerm}

theorem operand_of_leaf (h : t.2.isLeaf = true) : t.operand = t.chars := by
  rw [operand, Term.bracketed, if_pos h]
  rfl

theorem operand_of_not_leaf (h : t.2.isLeaf = false) : t.operand = '(' :: (t.chars ++ [')']) := by
  rw [operand, Term.bracketed, if_neg (by rw [h]; decide)]
  simp [chars]

theorem clear_of_leaf (ht : t.2.Clear w) (h : t.2.isLeaf = true) :
    t.chars ≠ [] ∧ ∀ c ∈ t.chars, isNameChar c = true := by
  have hclear := Term.clear_shape ht
  rwa [Term.shape_of_isLeaf h] at hclear

/-- The term can be read off its text, up to what the sort has to tell. -/
def Readable (w : Nat) (t : AnyTerm) : Prop :=
  ∀ (t' : AnyTerm) (r r' : List Char), t'.2.Legible w → Ends r → Ends r' → t.chars ++ r = t'.chars ++ r' →
    r = r' ∧ (t.1 = t'.1 ∨ t.2.isLeaf = false → t.tree = t'.tree)

theorem operand_inj (hread : t.Readable w) (ht : t.2.Clear w) (ht' : t'.2.Legible w) (hr : EndsOperand r)
    (hr' : EndsOperand r') (h : t.operand ++ r = t'.operand ++ r') : r = r' ∧ (t.1 = t'.1 → t.tree = t'.tree) := by
  have hclear' := (Term.every_iff.mp ht').1
  -- A name does not start with a bracket.
  have hmixed : ∀ {t t' : AnyTerm} {r r' : List Char}, t.2.Clear w → t.2.isLeaf = true → t'.2.isLeaf = false →
      t.operand ++ r ≠ t'.operand ++ r' := by
    intro t t' r r' ht hleaf hleaf' h
    obtain ⟨hne, hchars⟩ := clear_of_leaf ht hleaf
    obtain ⟨c, cs, hcons⟩ := List.exists_cons_of_ne_nil hne
    rw [operand_of_leaf hleaf, operand_of_not_leaf hleaf', hcons] at h
    rw [hcons, List.head_eq_of_cons_eq h] at hchars
    exact absurd (hchars '(' List.mem_cons_self) (by decide)
  cases hleaf : t.2.isLeaf <;> cases hleaf' : t'.2.isLeaf
  · rw [operand_of_not_leaf hleaf, operand_of_not_leaf hleaf'] at h
    have hstrip : t.chars ++ (')' :: r) = t'.chars ++ (')' :: r') := by simpa using h
    have hends : ∀ cs, Ends (')' :: cs) := fun cs c hc => Or.inl (Option.some_inj.mp hc).symm
    obtain ⟨hrest, htree⟩ := hread t' _ _ ht' (hends r) (hends r') hstrip
    exact ⟨List.tail_eq_of_cons_eq hrest, fun _ => htree (Or.inr hleaf)⟩
  · exact absurd h.symm (hmixed hclear' hleaf' hleaf)
  · exact absurd h (hmixed ht hleaf hleaf')
  · rw [operand_of_leaf hleaf, operand_of_leaf hleaf'] at h
    obtain ⟨htext, hrest⟩ := append_inj (clear_of_leaf ht hleaf).2 (clear_of_leaf hclear' hleaf').2 hr.stops hr'.stops h
    refine ⟨hrest, fun hsort => ?_⟩
    obtain ⟨k, t⟩ := t
    obtain ⟨k', t'⟩ := t'
    cases hsort
    rw [tree, tree, Term.bare_eq_of_leaf ht hclear' hleaf hleaf' (String.toList_inj.mp htext)]

end AnyTerm

namespace Shape

variable {s s' : Shape} {joint joint' : Joint}

theorem links_cons (joint : Joint) (a : AnyTerm) (args : List AnyTerm) (r : List Char) :
    links joint (a :: args) ++ r = ' ' :: (joint.sign ++ ' ' :: (a.operand ++ (links joint args ++ r))) := by
  simp [links]

theorem endsOperand_links (joint : Joint) (args : List AnyTerm) (hr : Ends r) :
    EndsOperand (links joint args ++ r) := by
  cases args with
  | nil => exact hr.operand
  | cons a args =>
      rw [links_cons]
      exact fun c hc => Or.inl (Option.some_inj.mp hc).symm

/-- Operands with signs between them are read one after the other. -/
theorem links_inj {args args' : List AnyTerm} (hread : ∀ a ∈ args, a.Readable w ∧ a.2.Clear w)
    (hargs' : ∀ a ∈ args', a.2.Legible w) (hr : Ends r) (hr' : Ends r')
    (h : links joint args ++ r = links joint args' ++ r') :
    r = r' ∧ ((∀ a ∈ args, ∀ a' ∈ args', a.1 = a'.1) → args.map AnyTerm.tree = args'.map AnyTerm.tree) := by
  induction args generalizing args' with
  | nil =>
      cases args' with
      | nil => exact ⟨h, fun _ => rfl⟩
      | cons a' args' =>
          rw [links_cons] at h
          have h : r = _ := h
          exact (Ends.not_blank (h ▸ hr)).elim
  | cons a args ih =>
      cases args' with
      | nil =>
          rw [links_cons] at h
          have h : _ = r' := h
          exact (Ends.not_blank (h.symm ▸ hr')).elim
      | cons a' args' =>
          rw [List.forall_mem_cons] at hread hargs'
          rw [links_cons, links_cons] at h
          have hoperands := List.tail_eq_of_cons_eq (List.append_cancel_left (List.tail_eq_of_cons_eq h))
          obtain ⟨hrest, htree⟩ := AnyTerm.operand_inj hread.1.1 hread.1.2 hargs'.1 (endsOperand_links joint args hr)
            (endsOperand_links joint args' hr') hoperands
          obtain ⟨hend, htrees⟩ := ih hread.2 hargs'.2 hrest
          refine ⟨hend, fun hsorts => ?_⟩
          rw [List.map_cons, List.map_cons, htree (hsorts a List.mem_cons_self a' List.mem_cons_self),
            htrees fun b hb b' hb' => hsorts b (List.mem_cons_of_mem a hb) b' (List.mem_cons_of_mem a' hb')]

/-- A number for the kind of a shape. -/
def kind : Shape → Nat
  | leaf _ => 0
  | choice .. => 1
  | signed .. => 2
  | chain .. => 3

/-- The kind of a text that starts with a name, which may be empty, and goes on. -/
def kindOf (name rest : List Char) : Nat :=
  if name = [] then if rest.head? = some '(' then 3 else 2
  else if rest.head? = some '(' then 1
  else if rest.head? = some ' ' then 3
  else 0

/-- The start of a text tells its kind. -/
theorem exists_kind (hs : s.Clear) (hchildren : ∀ a ∈ s.children, a.2.Clear w) (hr : Ends r) :
    ∃ name rest, s.chars ++ r = name ++ rest ∧ (∀ c ∈ name, isNameChar c = true) ∧ Stops isNameChar rest ∧
      kindOf name rest = s.kind := by
  cases s with
  | leaf name =>
      have hnot : ∀ c, c ≠ ')' → c ≠ ',' → r.head? ≠ some c := fun c hne hne' hc => (hr c hc).elim hne hne'
      refine ⟨name, r, rfl, hs.2, hr.operand.stops, ?_⟩
      rw [kindOf, if_neg hs.1, if_neg (hnot '(' (by decide) (by decide)), if_neg (hnot ' ' (by decide) (by decide))]
      rfl
  | choice guard yes no =>
      let rest := guard.chars ++ ',' :: ' ' :: (yes.chars ++ ',' :: ' ' :: (no.chars ++ [')']))
      exact ⟨"ITE".toList, '(' :: (rest ++ r), rfl, List.all_eq_true.mp (by decide), stops_cons.mpr rfl, rfl⟩
  | signed mark arg =>
      obtain ⟨hne, hall⟩ := mark.isSignChar_sign
      obtain ⟨c, cs, hcons⟩ := List.exists_cons_of_ne_nil hne
      have hsign := hall c (hcons ▸ List.mem_cons_self)
      rw [isSignChar, Bool.and_eq_true, Bool.not_eq_true', bne_iff_ne] at hsign
      refine ⟨[], c :: (cs ++ (arg.operand ++ r)), ?_, List.forall_mem_nil _, stops_cons.mpr hsign.1, ?_⟩
      · simp [chars, hcons]
      exact if_neg fun hhead => hsign.2 (Option.some_inj.mp hhead)
  | chain joint args =>
      have htwo : 2 ≤ args.length := hs
      rcases args with _ | ⟨a, _ | ⟨b, args⟩⟩
      · exact absurd htwo (Nat.not_succ_le_zero 1)
      · exact absurd htwo (Nat.not_succ_le_self 1)
      · have hrest : (chain joint (a :: b :: args)).chars ++ r =
            a.operand ++ ' ' :: (joint.sign ++ ' ' :: (b.operand ++ (links joint args ++ r))) := by
          rw [chars, List.append_assoc, links_cons]
        have hclear := hchildren a List.mem_cons_self
        cases hleaf : a.2.isLeaf with
        | true =>
            obtain ⟨hne, hname⟩ := AnyTerm.clear_of_leaf hclear hleaf
            rw [AnyTerm.operand_of_leaf hleaf] at hrest
            exact ⟨a.chars, _, hrest, hname, stops_cons.mpr rfl, if_neg hne⟩
        | false =>
            rw [AnyTerm.operand_of_not_leaf hleaf] at hrest
            exact ⟨[], _, hrest, List.forall_mem_nil _, stops_cons.mpr rfl, rfl⟩

theorem stops_operand {a : AnyTerm} (ha : a.2.Clear w) (r : List Char) : Stops isSignChar (a.operand ++ r) := by
  cases hleaf : a.2.isLeaf with
  | true =>
      obtain ⟨hne, hname⟩ := AnyTerm.clear_of_leaf ha hleaf
      obtain ⟨c, cs, hcons⟩ := List.exists_cons_of_ne_nil hne
      rw [AnyTerm.operand_of_leaf hleaf, hcons]
      refine stops_cons.mpr ?_
      rw [isSignChar, hname c (hcons ▸ List.mem_cons_self)]
      rfl
  | false =>
      rw [AnyTerm.operand_of_not_leaf hleaf]
      exact stops_cons.mpr rfl

/-- Chains of operands are read operand by operand, once the first one has told where the sign is. -/
theorem chain_inj {args args' : List AnyTerm} (hs : 2 ≤ args.length) (hs' : 2 ≤ args'.length)
    (hread : ∀ a ∈ args, a.Readable w ∧ a.2.Clear w) (hlegible : ∀ a ∈ args', a.2.Legible w) (hr : Ends r)
    (hr' : Ends r') (h : (chain joint args).chars ++ r = (chain joint' args').chars ++ r') :
    r = r' ∧ (chain joint args).Agrees (chain joint' args') := by
  match args, args', hs, hs' with
  | a :: b :: args, a' :: b' :: args', _, _ =>
      rw [List.forall_mem_cons] at hread hlegible
      rw [chars, chars, List.append_assoc, List.append_assoc] at h
      obtain ⟨hlinks, htree⟩ := AnyTerm.operand_inj hread.1.1 hread.1.2 hlegible.1 (endsOperand_links _ _ hr)
        (endsOperand_links _ _ hr') h
      have hblank : ∀ cs : List Char, Stops (· != ' ') (' ' :: cs) := fun cs => stops_cons.mpr rfl
      have hjoint : joint = joint' := by
        have hsigns := hlinks
        rw [links_cons, links_cons] at hsigns
        exact Joint.sign_inj (append_inj joint.sign_ne_blank joint'.sign_ne_blank (hblank _) (hblank _)
          (List.tail_eq_of_cons_eq hsigns)).1
      subst hjoint
      obtain ⟨hrest, htrees⟩ := links_inj hread.2 hlegible.2 hr hr' hlinks
      refine ⟨hrest, rfl, fun hsorts => ?_⟩
      rw [List.map_cons, List.map_cons (l := b' :: args'), htree (hsorts a List.mem_cons_self a' List.mem_cons_self),
        htrees fun c hc c' hc' => hsorts c (List.mem_cons_of_mem a hc) c' (List.mem_cons_of_mem a' hc')]

/-- Shapes agree if their texts do, up to what can follow them. -/
theorem agrees_of_chars (hs : s.Clear) (hs' : s'.Clear) (hread : ∀ a ∈ s.children, a.Readable w ∧ a.2.Clear w)
    (hlegible : ∀ a ∈ s'.children, a.2.Legible w) (hr : Ends r) (hr' : Ends r') (h : s.chars ++ r = s'.chars ++ r') :
    r = r' ∧ s.Agrees s' := by
  have hclear : ∀ a ∈ s'.children, a.2.Clear w := fun a ha => (Term.every_iff.mp (hlegible a ha)).1
  have hkind : s.kind = s'.kind := by
    obtain ⟨name, rest, heq, hname, hstops, hkind⟩ := exists_kind hs (fun a ha => (hread a ha).2) hr
    obtain ⟨name', rest', heq', hname', hstops', hkind'⟩ := exists_kind hs' hclear hr'
    obtain ⟨rfl, rfl⟩ := append_inj hname hname' hstops hstops' (heq.symm.trans (h.trans heq'))
    exact hkind.symm.trans hkind'
  cases s with
  | leaf name =>
      cases s' with
      | leaf name' => exact (append_inj hs.2 hs'.2 hr.operand.stops hr'.operand.stops h).symm
      | _ => cases hkind
  | choice guard yes no =>
      cases s' with
      | choice guard' yes' no' =>
          have hcomma : ∀ cs, Ends (',' :: cs) := fun cs c hc => Or.inr (Option.some_inj.mp hc).symm
          have hbracket : ∀ cs, Ends (')' :: cs) := fun cs c hc => Or.inl (Option.some_inj.mp hc).symm
          simp only [children, List.forall_mem_cons] at hread hlegible
          obtain ⟨hguard, hyes, hno, -⟩ := hread
          obtain ⟨hguard', hyes', hno', -⟩ := hlegible
          have h : guard.chars ++ (',' :: ' ' :: (yes.chars ++ (',' :: ' ' :: (no.chars ++ (')' :: r))))) =
              guard'.chars ++ (',' :: ' ' :: (yes'.chars ++ (',' :: ' ' :: (no'.chars ++ (')' :: r'))))) := by
            simpa [chars] using h
          obtain ⟨hrest, hguards⟩ := hguard.1 _ _ _ hguard' (hcomma _) (hcomma _) h
          obtain ⟨hrest, hyess⟩ := hyes.1 _ _ _ hyes' (hcomma _) (hcomma _)
            (List.tail_eq_of_cons_eq (List.tail_eq_of_cons_eq hrest))
          obtain ⟨hrest, hnos⟩ := hno.1 _ _ _ hno' (hbracket _) (hbracket _)
            (List.tail_eq_of_cons_eq (List.tail_eq_of_cons_eq hrest))
          exact ⟨List.tail_eq_of_cons_eq hrest, fun hsort => hguards (Or.inl hsort), fun hsort => hyess (Or.inl hsort),
            fun hsort => hnos (Or.inl hsort)⟩
      | _ => cases hkind
  | signed mark arg =>
      cases s' with
      | signed mark' arg' =>
          obtain ⟨hread, hclear'⟩ := hread arg (List.mem_singleton_self arg)
          rw [chars, chars, List.append_assoc, List.append_assoc] at h
          obtain ⟨hsign, hoperand⟩ := append_inj mark.isSignChar_sign.2 mark'.isSignChar_sign.2
            (stops_operand hclear' r) (stops_operand (hclear arg' (List.mem_singleton_self arg')) r') h
          obtain ⟨hrest, htree⟩ := AnyTerm.operand_inj hread hclear' (hlegible arg' (List.mem_singleton_self arg'))
            hr.operand hr'.operand hoperand
          exact ⟨hrest, Mark.sign_inj hsign, htree⟩
      | _ => cases hkind
  | chain joint args =>
      cases s' with
      | chain joint' args' => exact chain_inj hs hs' hread hlegible hr hr' h
      | _ => cases hkind

end Shape

namespace Term

variable {k l : Ty}

theorem bare_eq_of_tree {t u : Term k} (h : AnyTerm.tree ⟨k, t⟩ = AnyTerm.tree ⟨k, u⟩) : t.bare = u.bare :=
  eq_of_heq (Sigma.mk.inj h).2

/-- Terms of one sort with the same trees. -/
theorem map_tree_eq (ts us : List (Term k))
    (h : (∀ a ∈ ts.map (⟨k, ·⟩ : Term k → AnyTerm), ∀ a' ∈ us.map (⟨k, ·⟩ : Term k → AnyTerm), a.1 = a'.1) →
      (ts.map (⟨k, ·⟩ : Term k → AnyTerm)).map AnyTerm.tree = (us.map (⟨k, ·⟩ : Term k → AnyTerm)).map AnyTerm.tree) :
    ts.map bare = us.map bare := by
  have htrees := h fun a ha a' ha' => by
    obtain ⟨t, -, rfl⟩ := List.mem_map.mp ha
    obtain ⟨u, -, rfl⟩ := List.mem_map.mp ha'
    rfl
  have hinj : Function.Injective (⟨k, ·⟩ : Term k → AnyTerm) := sigma_mk_injective
  refine List.map_injective_iff.mpr hinj ?_
  simpa [List.map_map, Function.comp_def, AnyTerm.tree] using htrees

/-- A term is determined by its shape, if this is no leaf, and otherwise by shape and sort. -/
theorem tree_eq_of_agrees {t : Term k} {u : Term l} (ht : t.Clear w) (hu : u.Clear w) (h : t.shape.Agrees u.shape)
    (hsort : k = l ∨ t.isLeaf = false) : AnyTerm.tree ⟨k, t⟩ = AnyTerm.tree ⟨l, u⟩ := by
  cases hleaf : t.isLeaf with
  | true =>
      rw [hleaf, or_iff_left (by decide)] at hsort
      subst hsort
      have hleaf' : u.isLeaf = true := by
        rw [shape_of_isLeaf hleaf] at h
        cases u with
        | symbol | const | truth => rfl
        | _ => exact h.elim
      rw [shape_of_isLeaf hleaf, shape_of_isLeaf hleaf'] at h
      rw [AnyTerm.tree, AnyTerm.tree, bare_eq_of_leaf ht hu hleaf hleaf' (String.toList_inj.mp h)]
  | false =>
      cases t with
      | symbol | const | truth => cases hleaf
      | ite i cond yes no =>
          cases u with
          | ite j cond' yes' no' =>
              have hcond := bare_eq_of_tree (h.1 rfl)
              have hyes := bare_eq_of_tree (h.2.1 rfl)
              have hno := bare_eq_of_tree (h.2.2 rfl)
              rw [AnyTerm.tree, AnyTerm.tree, bare, bare, hcond, hyes, hno]
          | _ => exact h.elim
      | unary i op arg =>
          cases u with
          | unary j op' arg' =>
              cases h.1
              rw [AnyTerm.tree, AnyTerm.tree, bare, bare, bare_eq_of_tree (h.2 rfl)]
          | not => cases h.1
          | _ => exact h.elim
      | not i arg =>
          cases u with
          | not j arg' => rw [AnyTerm.tree, AnyTerm.tree, bare, bare, bare_eq_of_tree (h.2 rfl)]
          | unary => cases h.1
          | _ => exact h.elim
      | binary i op left right =>
          cases u with
          | binary j op' left' right' =>
              cases h.1
              have hargs := map_tree_eq [left, right] [left', right'] h.2
              simp only [List.map_cons, List.map_nil, List.cons.injEq, and_true] at hargs
              rw [AnyTerm.tree, AnyTerm.tree, bare, bare, hargs.1, hargs.2]
          | nary | compare | junction => cases h.1
          | _ => exact h.elim
      | compare i op left right =>
          cases u with
          | compare j op' left' right' =>
              cases h.1
              have hargs := map_tree_eq [left, right] [left', right'] h.2
              simp only [List.map_cons, List.map_nil, List.cons.injEq, and_true] at hargs
              rw [AnyTerm.tree, AnyTerm.tree, bare, bare, hargs.1, hargs.2]
          | binary | nary | junction => cases h.1
          | _ => exact h.elim
      | nary i op args =>
          cases u with
          | nary j op' args' =>
              cases h.1
              rw [AnyTerm.tree, AnyTerm.tree, bare, bare, bareWords_eq_map, bareWords_eq_map,
                map_tree_eq args args' h.2]
          | binary | compare | junction => cases h.1
          | _ => exact h.elim
      | junction i op args =>
          cases u with
          | junction j op' args' =>
              cases h.1
              rw [AnyTerm.tree, AnyTerm.tree, bare, bare, bareConds_eq_map, bareConds_eq_map,
                map_tree_eq args args' h.2]
          | binary | compare | nary => cases h.1
          | _ => exact h.elim

/-- What holds of the terms below a term holds of the children of its shape. -/
theorem forall_mem_children {P : ∀ {k : Ty}, Term k → Prop} {t : Term k} (h : t.Children P) :
    ∀ a ∈ t.shape.children, P a.2 := by
  cases t with
  | nary | junction => exact List.forall_mem_map.mpr h
  | symbol | const | truth => exact nofun
  | _ => simpa [shape, Shape.children, Children] using h

/-- Legible terms are readable. -/
theorem Legible.readable {t : Term k} : t.Legible w → AnyTerm.Readable w ⟨k, t⟩ := by
  induction t using induct_children with
  | h t ih =>
      intro ht ⟨l, u⟩ r r' hu hr hr' h
      obtain ⟨hclear, hbelow⟩ := every_iff.mp ht
      obtain ⟨hclear', hbelow'⟩ := every_iff.mp hu
      have hread : ∀ a ∈ t.shape.children, a.Readable w ∧ a.2.Clear w := fun a ha =>
        have hlegible : a.2.Legible w := forall_mem_children hbelow a ha
        ⟨forall_mem_children ih a ha hlegible, (every_iff.mp hlegible).1⟩
      rw [AnyTerm.chars, AnyTerm.chars, chars_shape, chars_shape] at h
      obtain ⟨hrest, hagrees⟩ := Shape.agrees_of_chars (clear_shape hclear) (clear_shape hclear') hread
        (forall_mem_children hbelow') hr hr' h
      exact ⟨hrest, tree_eq_of_agrees hclear hclear' hagrees⟩

/-- Legible terms of one sort are told apart by their texts. -/
theorem bare_eq_of_text {t u : Term k} (ht : t.Legible w) (hu : u.Legible w) (h : t.text = u.text) :
    t.bare = u.bare := by
  have hends : Ends [] := fun c hc => by cases hc
  obtain ⟨-, htree⟩ := ht.readable ⟨k, u⟩ [] [] hu hends hends (congrArg (String.toList · ++ []) h)
  exact bare_eq_of_tree (htree (Or.inl rfl))

/-! ### Interned terms -/

/-- Words have the width, and symbols are named by identifiers. -/
def Plain (w : Nat) : {k : Ty} → Term k → Prop
  | .word, t => t.width = w ∧ ∀ name ∈ t.name?, isIdentifier name = true
  | .bool, _ => True

theorem Children.mp {P Q : ∀ {k : Ty}, Term k → Prop} {t : Term k} (h : t.Children fun u => P u → Q u)
    (ht : t.Children P) : t.Children Q := by
  cases t with
  | symbol | const | truth => trivial
  | ite => exact ⟨h.1 ht.1, h.2.1 ht.2.1, h.2.2 ht.2.2⟩
  | unary | not => exact h ht
  | binary | compare => exact ⟨h.1 ht.1, h.2 ht.2⟩
  | nary | junction => exact fun u hu => h u hu (ht u hu)

/-- Interned terms are legible where widths and names are plain. -/
theorem Every.legible {b : Builder} (hb : b.Consistent) (htidy : b.Tidy) {t : Term k} (ht : b.Holds t)
    (hplain : t.Every fun u => u.Plain w) : t.Legible w := by
  induction t using induct_children with
  | h t ih =>
      obtain ⟨hnode, hbelow⟩ := every_iff.mp hplain
      have hchildren : t.Children fun u => u.Legible w := (Children.mp ih (hb.children ht)).mp hbelow
      refine every_iff.mpr ⟨?_, hchildren⟩
      cases t with
      | symbol i name width => exact ⟨hnode.2 name rfl, hnode.1⟩
      | const i c => exact hnode.1
      | nary i op args => exact (htidy.term ht).many
      | junction i op args => exact (htidy.term ht).1
      | _ => trivial

/-! ### Texts and meanings of trees -/

theorem isLeaf_bare (t : Term k) : t.bare.isLeaf = t.isLeaf := by
  cases t <;> rfl

theorem text_bare (t : Term k) : t.bare.text = t.text := by
  induction t using Term.induct with
  | symbol | const | truth => rfl
  | ite i cond yes no hcond hyes hno => rw [bare, text, text, hcond, hyes, hno]
  | unary i op arg ih => rw [bare, text, text, isLeaf_bare, ih]
  | not i arg ih => rw [bare, text, text, isLeaf_bare, ih]
  | binary i op left right hleft hright => rw [bare, text, text, isLeaf_bare, isLeaf_bare, hleft, hright]
  | compare i op left right hleft hright => rw [bare, text, text, isLeaf_bare, isLeaf_bare, hleft, hright]
  | nary i op args ih =>
      rw [bare, text, text, wordTexts_eq_map, wordTexts_eq_map, bareWords_eq_map, List.map_map]
      exact congrArg _ (List.map_congr_left fun t ht => by rw [Function.comp_apply, isLeaf_bare, ih t ht])
  | junction i op args ih =>
      rw [bare, text, text, condTexts_eq_map, condTexts_eq_map, bareConds_eq_map, List.map_map]
      exact congrArg _ (List.map_congr_left fun t ht => by rw [Function.comp_apply, isLeaf_bare, ih t ht])

theorem width_bare (t : Term k) : t.bare.width = t.width := by
  induction t using Term.induct with
  | symbol | const | truth | not | compare | junction => rfl
  | ite i cond yes no hcond hyes hno => exact hyes
  | unary i op arg ih => exact ih
  | binary i op left right hleft hright => exact hleft
  | nary i op args ih =>
      cases args with
      | nil => rfl
      | cons t ts => exact ih t List.mem_cons_self

theorem denote_bare (ρ : Valuation) (t : Term k) : t.bare.denote ρ = t.denote ρ := by
  induction t using Term.induct with
  | symbol | const | truth => rfl
  | ite i cond yes no hcond hyes hno => rw [bare, denote, denote, hcond, hyes, hno]
  | unary i op arg ih => rw [bare, denote, denote, ih]
  | not i arg ih => rw [bare, denote, denote, ih]
  | binary i op left right hleft hright => rw [bare, denote, denote, hleft, hright]
  | compare i op left right hleft hright => rw [bare, denote, denote, hleft, hright, width_bare]
  | nary i op args ih =>
      funext w
      change (nary 0 op (bareWords args)).bits ρ w = (nary i op args).bits ρ w
      rw [bits_nary, bits_nary, bareWords_eq_map, List.map_map]
      exact congrArg _ (List.map_congr_left fun t ht => congrFun (ih t ht) w)
  | junction i op args ih =>
      change (junction 0 op (bareConds args)).holds ρ = (junction i op args).holds ρ
      rw [holds_junction, holds_junction, bareConds_eq_map, List.map_map]
      exact congrArg _ (List.map_congr_left ih)

end Term

theorem QueryCache.key_eq_iff {digest : String → UInt64} {kind : String} {p q : Cond} :
    key digest kind p = key digest kind q ↔ digest p.text = digest q.text :=
  ⟨fun h => UInt64.toNat_inj.mp (Text.hexPadded_injective ((String.append_right_inj _).mp h)), fun h => by
    rw [key, key, h]⟩

/-- Conditions whose words are of one width, and whose symbols are named by identifiers, have one text exactly if
they are the same tree, whichever builders they are interned in. They hold under the same valuations then; and the
cache files them under one key, whichever digest it takes, exactly if they are the same tree or if their texts, which
differ, have the same digest. -/
theorem texts_are_unambiguous {scatter scatter' : List Nat → Nat} {b c : Builder} (hb : Builder.Evolves { scatter } b)
    (hc : Builder.Evolves { scatter := scatter' } c) {p q : Cond} (hp : b.Holds p) (hq : c.Holds q) {w : Nat}
    (hplain : p.Every fun t => t.Plain w) (hplain' : q.Every fun t => t.Plain w) :
    (p.text = q.text ↔ p.bare = q.bare) ∧
    (p.text = q.text → ∀ ρ : Valuation, p.holds ρ = q.holds ρ) ∧
    ∀ digest kind, QueryCache.key digest kind p = QueryCache.key digest kind q ↔
      p.bare = q.bare ∨ p.text ≠ q.text ∧ digest p.text = digest q.text := by
  have hlegible := hplain.legible hb.consistent (hb.tidy Builder.consistent_empty Builder.tidy_empty) hp
  have hlegible' := hplain'.legible hc.consistent (hc.tidy Builder.consistent_empty Builder.tidy_empty) hq
  have htext : p.text = q.text ↔ p.bare = q.bare :=
    ⟨Term.bare_eq_of_text hlegible hlegible', fun h => by rw [← Term.text_bare p, h, Term.text_bare]⟩
  refine ⟨htext, fun h ρ => ?_, fun digest kind => ?_⟩
  · rw [Term.holds, ← Term.denote_bare, htext.mp h, Term.denote_bare]
    rfl
  · rw [QueryCache.key_eq_iff, ← htext]
    by_cases h : p.text = q.text
    · simp [h]
    · simp [h]

/-- A comparison in two builders that have numbered its symbols in different orders. -/
theorem texts_are_unambiguous_of_orders :
    let p : Cond := .compare 3 .slt (.symbol 1 "x" 64) (.symbol 2 "y" 64)
    let q : Cond := .compare 3 .slt (.symbol 2 "x" 64) (.symbol 1 "y" 64)
    let b₁ := ((Request.symbol "x" 64).run { scatter := fun _ => 0 }).2
    let b₂ := ((Request.symbol "y" 64).run b₁).2
    let b := ((Request.compare .slt (.symbol 1 "x" 64) (.symbol 2 "y" 64)).run b₂).2
    let c₁ := ((Request.symbol "y" 64).run { scatter := fun _ => 1 }).2
    let c₂ := ((Request.symbol "x" 64).run c₁).2
    let c := ((Request.compare .slt (.symbol 2 "x" 64) (.symbol 1 "y" 64)).run c₂).2
    Builder.Evolves { scatter := fun _ => 0 } b ∧ Builder.Evolves { scatter := fun _ => 1 } c ∧ b.Holds p ∧ c.Holds q ∧
      (p.Every fun t => t.Plain 64) ∧ (q.Every fun t => t.Plain 64) ∧ p.text = q.text ∧ p.bare = q.bare ∧
      (∀ ρ : Valuation, p.holds ρ = q.holds ρ) ∧
      QueryCache.key Text.digest "solve" p = QueryCache.key Text.digest "solve" q := by
  intro p q b₁ b₂ b c₁ c₂ c
  have hb₁ : Builder.Evolves { scatter := fun _ => 0 } b₁ := Builder.Evolves.refl.request (.symbol "x" 64) trivial
  have hb₂ : Builder.Evolves { scatter := fun _ => 0 } b₂ := hb₁.request (.symbol "y" 64) trivial
  have hx₁ : b₁.Holds (.symbol 1 "x" 64 : Term .word) :=
    Request.holds_of_run Builder.consistent_empty trivial trivial rfl
  have hx := hx₁.mono (Request.runs hb₁.consistent (.symbol "y" 64) trivial).grows
  have hy : b₂.Holds (.symbol 2 "y" 64 : Term .word) := Request.holds_of_run hb₁.consistent trivial trivial rfl
  have hb : Builder.Evolves { scatter := fun _ => 0 } b := hb₂.request (.compare .slt _ _) ⟨hx, hy⟩
  have hp : b.Holds p := Request.holds_of_run hb₂.consistent ⟨hx, hy⟩ rfl rfl
  have hc₁ : Builder.Evolves { scatter := fun _ => 1 } c₁ := Builder.Evolves.refl.request (.symbol "y" 64) trivial
  have hc₂ : Builder.Evolves { scatter := fun _ => 1 } c₂ := hc₁.request (.symbol "x" 64) trivial
  have hy₁ : c₁.Holds (.symbol 1 "y" 64 : Term .word) :=
    Request.holds_of_run Builder.consistent_empty trivial trivial rfl
  have hy' := hy₁.mono (Request.runs hc₁.consistent (.symbol "x" 64) trivial).grows
  have hx' : c₂.Holds (.symbol 2 "x" 64 : Term .word) := Request.holds_of_run hc₁.consistent trivial trivial rfl
  have hc : Builder.Evolves { scatter := fun _ => 1 } c := hc₂.request (.compare .slt _ _) ⟨hx', hy'⟩
  have hq : c.Holds q := Request.holds_of_run hc₂.consistent ⟨hx', hy'⟩ rfl rfl
  have hname : ∀ name ∈ ["x", "y"], isIdentifier name = true := by decide
  have hplain : p.Every fun t => t.Plain 64 := by
    simp [p, Term.Every, Term.Plain, Term.width, Term.name?, hname "x", hname "y"]
  have hplain' : q.Every fun t => t.Plain 64 := by
    simp [q, Term.Every, Term.Plain, Term.width, Term.name?, hname "x", hname "y"]
  obtain ⟨htext, hholds, hkey⟩ := texts_are_unambiguous hb hc hp hq hplain hplain'
  have hsame : p.text = q.text := rfl
  exact ⟨hb, hc, hp, hq, hplain, hplain', hsame, htext.mp hsame, hholds hsame,
    (hkey Text.digest "solve").mpr (Or.inl rfl)⟩

end Pathwise
