import Pathwise.Proofs.Constructors

/-! Constructors that check their work. In `Build` the widths of operands are looked at once, before a constructor
starts, and it relies on them from there on. In `Guarded` the same constructors check again wherever widths could
differ: before two constants are folded, before a node is interned, and before a part is added while a sum is negated;
where the last of these fails there is nothing to answer, and the computation breaks off.

In a consistent builder no check ever fails. `Guarded.Agrees` says that a guarded computation ends with the answer and
the builder of a plain one; it is proved for every constructor in the two monads, on held operands of one width, along
the branches of the constructor, and for negation by the induction that its recursion follows. -/

namespace Pathwise

open Builder Term

/-! ### Faults -/

/-- What is wrong with a node. -/
inductive NodeError where
  | tooFew
  | sizes
  | branchSizes
  | compareSizes
deriving DecidableEq, Repr

/-- What a check finds wrong with a node before it is interned. -/
def Term.nodeError? {k : Ty} : Term k → Option NodeError
  | .ite _ _ yes no => if no.width = yes.width then none else some .branchSizes
  | .binary _ _ left right => if right.width = left.width then none else some .sizes
  | .nary _ _ args =>
    if args.length < 2 then some .tooFew
    else if ∀ t ∈ args, t.width = firstWidth args then none
    else some .sizes
  | .compare _ _ left right => if right.width = left.width then none else some .compareSizes
  | .symbol .. | .const .. | .unary .. | .truth .. | .not .. | .junction .. => none

/-- How a guarded constructor can fail. -/
inductive Fault where
  /-- The operands were refused. -/
  | operands (e : OperandError)
  /-- Two constants could not be folded. -/
  | constants (e : WidthMismatch)
  /-- A node was not fit to be interned. -/
  | node (e : NodeError)
  /-- Something failed that was taken to be impossible. -/
  | broken (cause : Fault)
deriving DecidableEq, Repr

/-- Computations over a builder whose checks may fail. -/
abbrev Guarded := ExceptT Fault Build

namespace Guarded

variable {α : Type} {k : Ty}

/-- A computation without checks. -/
def lift (act : Build α) : Guarded α := ExceptT.lift act

/-- A computation that may refuse its operands and checks nothing else. -/
def refusing (act : Build (Except OperandError α)) : Guarded α := (ExceptT.mk act).adapt Fault.operands

end Guarded

instance : MonadTerms Guarded where
  build := Guarded.lift
  node draft :=
    match draft.nodeError? with
    | none => Guarded.lift (Build.intern draft)
    | some e => throw (.node e)
  fold op a b answer :=
    match Word.checked op a b with
    | .ok c => Guarded.lift (answer c)
    | .error e => throw (.constants e)
  sized e x y act := if x.width = y.width then act else throw (.operands e)
  surely act := act.adapt Fault.broken

open MonadTerms in
/-- The constructor at work, with all checks. -/
def Request.guarded {k : Ty} : Request k → Guarded (Term k)
  | .int v width => build (Build.int v width)
  | .symbol name width => build (Build.symbol name width)
  | .unary op x => MonadTerms.unary op x
  | .nary op x y => sized .sizes x y (MonadTerms.nary op x y)
  | .sub x y => MonadTerms.sub x y
  | .binary op x y => sized .sizes x y (MonadTerms.binary op x y)
  | .ite guard yes no => sized .branchSizes yes no (MonadTerms.ite guard yes no)
  | .truth v => build (Build.truth v)
  | .compare op x y => sized .sizes x y (MonadTerms.compare op x y)
  | .notEqual x y => MonadTerms.notEqual x y
  | .boolNot p => negate p
  | .join op p q => build (Build.join op p q)
  | .all ps => build (Build.all ps)

/-! ### Agreement -/

namespace Guarded

open MonadTerms

variable {α β : Type} {b : Builder} {k : Ty} {w : Nat} {x y : Term .word}

/-- The guarded computation ends with the answer and the builder of the plain one: no check fails. -/
def Agrees (g : Guarded α) (act : Build α) (b : Builder) : Prop := g b = (.ok (act b).1, (act b).2)

theorem Agrees.pure (a : α) : Agrees (Pure.pure a) (Pure.pure a) b := rfl

theorem Agrees.lift (act : Build α) : Agrees (Guarded.lift act) act b := rfl

theorem Agrees.bind {g : Guarded α} {act : Build α} {gnext : α → Guarded β} {next : α → Build β}
    {mid : α → Builder → Prop} (h : Agrees g act b) (hrun : Build.Runs act b mid)
    (hnext : ∀ a c, b ≤ c → c.Consistent → mid a c → Agrees (gnext a) (next a) c) :
    Agrees (g >>= gnext) (act >>= next) b :=
  (bind_of_ok h).trans (hnext _ _ hrun.grows hrun.consistent hrun.post)

theorem Agrees.surely {g : Guarded α} {act : Build α} (h : Agrees g act b) : Agrees (surely g) act b :=
  congrArg (fun r : Except Fault α × Builder => (r.1.mapError Fault.broken, r.2)) h

theorem Agrees.sized {g : Guarded α} {act : Build α} (e : OperandError) (hwidth : x.width = y.width)
    (h : Agrees g act b) : Agrees (sized e x y g) act b := by
  change Agrees (if x.width = y.width then g else throw (.operands e)) act b
  rwa [if_pos hwidth]

theorem node_agrees {d : Term k} (h : d.nodeError? = none) : Agrees (node d) (node d) b := by
  change (match d.nodeError? with
    | none => Guarded.lift (Build.intern d)
    | some e => throw (.node e) : Guarded (Term k)) b = _
  rw [h]
  rfl

/-- Constants of one width are folded as without the check. -/
theorem fold_agrees {op : Word → Word → α} {answer : α → Build (Term k)} {a a' : Word} (hx : b.HoldsAt w x)
    (hy : b.HoldsAt w y) (ha : x.const? = some a) (ha' : y.const? = some a') :
    Agrees (fold op a a' answer) (fold op a a' answer) b := by
  have hwidth : a.width = a'.width := by rw [width_of_const? ha, width_of_const? ha', hx.width, hy.width]
  change (match Word.checked op a a' with
    | .ok c => Guarded.lift (answer c)
    | .error e => throw (.constants e) : Guarded (Term k)) b = _
  rw [Word.checked, if_pos hwidth]
  rfl

theorem nodeError?_nary {op : NaryOp} {i : Nat} {ts : List (Term .word)} (hlen : 2 ≤ ts.length)
    (hts : ∀ t ∈ ts, t.width = w) : (Term.nary i op ts).nodeError? = none := by
  have hfirst : firstWidth ts = w := by
    obtain ⟨t, us, rfl⟩ := List.exists_cons_of_length_pos (by omega : 0 < ts.length)
    exact hts t List.mem_cons_self
  rw [nodeError?, if_neg (by omega), if_pos]
  rwa [hfirst]

theorem collect_agrees (op : NaryOp) {ts : List (Term .word)} (hts : ∀ t ∈ ts, t.width = w) :
    Agrees (collect op w ts) (collect op w ts) b := by
  cases ts with
  | nil => exact .lift _
  | cons t ts =>
      cases ts with
      | nil => exact .pure t
      | cons u ts =>
          refine node_agrees (nodeError?_nary ?_ fun v hv => hts v (mem_sortById.mp hv))
          rw [(sortById_perm _).length_eq]
          exact Nat.le_add_left 2 _

theorem collectWith_agrees (hb : b.Consistent) (op : NaryOp) {c : Word} (hc : c.width = w) {rest : List (Term .word)}
    (hrest : ∀ t ∈ rest, t.width = w) : Agrees (collectWith op w c rest) (collectWith op w c rest) b := by
  unfold collectWith
  split_ifs
  · exact collect_agrees op hrest
  · refine (Agrees.lift (Build.const c)).bind (Build.const_runs hb c) fun t c' _ _ ht => ?_
    refine collect_agrees op fun u hu => ?_
    rcases List.mem_append.mp hu with hu | hu
    · exact hrest u hu
    · rw [List.mem_singleton.mp hu, ht.1.width, hc]

section Words

variable (hb : b.Consistent) (hx : b.HoldsAt w x) (hy : b.HoldsAt w y)

include hb hx hy

/-- The constants folded into one, with some of the other parts of both sides. -/
theorem parts_agrees (op : NaryOp) {c : Word} {rest kept : List (Term .word)}
    (h : foldConsts op (op.unit w) (x.parts op ++ y.parts op) = (c, rest)) (hkept : ∀ t ∈ kept, t ∈ rest) :
    Agrees (collectWith op w c kept) (collectWith op w c kept) b := by
  obtain ⟨hc, hrest, -⟩ := Build.operands_spec hb hx hy op h
  exact collectWith_agrees hb op hc fun t ht => (hrest t (hkept t ht)).1.width

theorem add_agrees : Agrees (add x y) (add x y) b := by
  unfold add
  split
  · rename_i a a' ha ha'
    exact fold_agrees hx hy ha ha'
  · split_ifs
    · exact .pure y
    · exact .pure x
    · exact .lift _
    · rw [hx.width]
      exact parts_agrees hb hx hy .add rfl fun t ht => mem_of_mem_cancel ht

theorem mul_agrees : Agrees (mul x y) (mul x y) b := by
  unfold mul
  split_ifs
  · exact .pure y
  · exact .pure x
  · exact .pure x
  · exact .pure y
  · rw [hx.width]
    dsimp only
    split_ifs
    · exact .lift _
    · exact parts_agrees hb hx hy .mul rfl fun t ht => ht

theorem and_agrees : Agrees (MonadTerms.and x y) (MonadTerms.and x y) b := by
  unfold MonadTerms.and
  split_ifs
  · exact .pure x
  · exact .pure y
  · exact .pure y
  · exact .pure x
  · exact .pure x
  · rw [hx.width]
    dsimp only
    split_ifs
    · exact .lift _
    · exact parts_agrees hb hx hy .and rfl fun t ht => mem_of_mem_dedup ht

theorem or_agrees : Agrees (MonadTerms.or x y) (MonadTerms.or x y) b := by
  unfold MonadTerms.or
  split_ifs
  · exact .pure y
  · exact .pure x
  · exact .pure x
  · exact .pure y
  · exact .pure x
  · rw [hx.width]
    dsimp only
    split_ifs
    · exact .lift _
    · exact parts_agrees hb hx hy .or rfl fun t ht => mem_of_mem_dedup ht

theorem xor_agrees : Agrees (MonadTerms.xor x y) (MonadTerms.xor x y) b := by
  unfold MonadTerms.xor
  split_ifs
  · exact .pure y
  · exact .pure x
  · exact .lift _
  · rw [hx.width]
    exact parts_agrees hb hx hy .xor rfl fun t ht => mem_of_mem_cancel ht

theorem nary_agrees (op : NaryOp) : Agrees (MonadTerms.nary op x y) (MonadTerms.nary op x y) b := by
  cases op with
  | and => exact and_agrees hb hx hy
  | or => exact or_agrees hb hx hy
  | xor => exact xor_agrees hb hx hy
  | add => exact add_agrees hb hx hy
  | mul => exact mul_agrees hb hx hy

omit hb

theorem binaryNode_agrees (op : BinaryOp) : Agrees (node (.binary 0 op x y)) (node (.binary 0 op x y)) b :=
  node_agrees (if_pos (hy.width.trans hx.width.symm))

theorem shift_agrees (op : BinaryOp) : Agrees (shift op x y) (shift op x y) b := by
  unfold shift
  cases y.const? with
  | none => exact binaryNode_agrees hx hy op
  | some amount =>
      cases x.const? with
      | some c =>
          dsimp only
          split_ifs
          · exact .pure x
          · exact .lift _
      | none =>
          dsimp only
          split_ifs
          · exact .pure x
          · exact .lift _
          · exact binaryNode_agrees hx hy op

theorem binary_agrees (op : BinaryOp) : Agrees (MonadTerms.binary op x y) (MonadTerms.binary op x y) b := by
  cases op with
  | shl => exact shift_agrees hx hy .shl
  | lshr => exact shift_agrees hx hy .lshr
  | ashr => exact shift_agrees hx hy .ashr
  | sdiv =>
      unfold MonadTerms.binary sdiv
      dsimp only
      split
      · rename_i a a' ha ha'
        exact fold_agrees hx hy ha ha'
      · split_ifs
        · exact .pure x
        · exact binaryNode_agrees hx hy .sdiv
  | srem =>
      unfold MonadTerms.binary srem
      dsimp only
      split
      · rename_i a a' ha ha'
        exact fold_agrees hx hy ha ha'
      · split_ifs
        · exact .lift _
        · exact binaryNode_agrees hx hy .srem

theorem ite_agrees (guard : Cond) : Agrees (MonadTerms.ite guard x y) (MonadTerms.ite guard x y) b := by
  unfold MonadTerms.ite
  cases guard.truth? with
  | some v =>
      cases v with
      | true => exact .pure x
      | false => exact .pure y
  | none =>
      dsimp only
      split_ifs
      · exact .pure x
      · exact node_agrees (d := .ite 0 guard x y) (if_pos (hy.width.trans hx.width.symm))

theorem compare_agrees (op : CompareOp) : Agrees (MonadTerms.compare op x y) (MonadTerms.compare op x y) b := by
  unfold MonadTerms.compare
  split
  · rename_i a a' ha ha'
    exact fold_agrees hx hy ha ha'
  · split_ifs
    · exact .lift _
    · exact node_agrees (d := .compare 0 op x y) (if_pos (hy.width.trans hx.width.symm))

end Words

theorem bitNot_agrees (x : Term .word) : Agrees (bitNot x) (bitNot x) b := by
  cases x with
  | unary i op arg => cases op <;> rfl
  | _ => rfl

/-! ### Opposites -/

theorem negateSum_agrees {ts : List (Term .word)}
    (ih : ∀ t ∈ ts, ∀ b : Builder, b.Consistent → b.Holds t → Agrees (negate t) (negate t) b) :
    ∀ {b : Builder} {acc : Term .word}, b.Consistent → b.HoldsAt w acc → (∀ t ∈ ts, b.HoldsAt w t) →
      Agrees (negateSum acc ts) (negateSum acc ts) b := by
  induction ts with
  | nil =>
      intro b acc _ _ _
      rw [negateSum, negateSum]
      exact .pure acc
  | cons t ts ihts =>
      intro b acc hb hacc hts
      rw [List.forall_mem_cons] at ih hts
      rw [negateSum, negateSum]
      refine (ih.1 b hb hts.1.held).bind (Build.neg_runs hb hts.1) fun n c hle hc hn => ?_
      have hacc := hacc.mono hle
      have hn := hn.toHoldsAt
      refine ((add_agrees hc hacc hn).sized .sizes (hacc.width.trans hn.width.symm)).surely.bind
        (Build.add_runs hc hacc hn) fun u c' hle' hc' hu => ?_
      exact ihts ih.2 hc' hu.toHoldsAt fun v hv => (hts.2 v hv).mono (hle.trans hle')

theorem negateJoin_agrees (op : Connective) {ps : List Cond}
    (ih : ∀ p ∈ ps, ∀ b : Builder, b.Consistent → b.Holds p → Agrees (negate p) (negate p) b) :
    ∀ {b : Builder} {acc : Cond}, b.Consistent → b.Holds acc → (∀ p ∈ ps, b.Holds p) →
      Agrees (negateJoin op acc ps) (negateJoin op acc ps) b := by
  induction ps with
  | nil =>
      intro b acc _ _ _
      rw [negateJoin, negateJoin]
      exact .pure acc
  | cons p ps ihps =>
      intro b acc hb hacc hps
      rw [List.forall_mem_cons] at ih hps
      rw [negateJoin, negateJoin]
      refine (ih.1 b hb hps.1).bind (Build.boolNot_runs hb hps.1) fun n c hle hc hn => ?_
      refine (Agrees.lift (Build.join op acc n)).bind (Build.join_runs hc (hacc.mono hle) hn.held op)
        fun q c' hle' hc' hq => ?_
      exact ihps ih.2 hc' hq.held fun r hr => (hps.2 r hr).mono (hle.trans hle')

/-- The parts of a held sum have one width, and negation keeps it, so they can be added up again. -/
theorem negate_sum_agrees {i : Nat} {args : List (Term .word)}
    (ih : ∀ t ∈ args, ∀ b : Builder, b.Consistent → b.Holds t → Agrees (negate t) (negate t) b)
    (hb : b.Consistent) (hsum : b.Holds (.nary i .add args)) :
    Agrees (negate (.nary i .add args)) (negate (.nary i .add args)) b := by
  obtain ⟨hwidths, u, hu, -⟩ := hb.proper hsum
  obtain ⟨t, ts, rfl⟩ := List.exists_cons_of_ne_nil (List.ne_nil_of_mem hu)
  have hargs : ∀ v ∈ t :: ts, b.HoldsAt t.width v := fun v hv => ⟨hb.children hsum v hv, hwidths v hv⟩
  rw [List.forall_mem_cons] at ih hargs
  rw [negate, negate]
  refine (ih.1 b hb hargs.1.held).bind (Build.neg_runs hb hargs.1) fun n c hle hc hn => ?_
  exact negateSum_agrees ih.2 hc hn.toHoldsAt fun v hv => (hargs.2 v hv).mono hle

theorem negate_agrees {k : Ty} (t : Term k) :
    ∀ b : Builder, b.Consistent → b.Holds t → Agrees (negate t) (negate t) b := by
  induction t using Term.induct with
  | symbol i name width =>
      intro b _ _
      rw [negate, negate]
      exact node_agrees rfl
  | const i c =>
      intro b _ _
      rw [negate, negate]
      exact .lift _
  | ite i cond yes no =>
      intro b _ _
      rw [negate, negate]
      exact node_agrees rfl
  | unary i op arg =>
      intro b _ _
      rw [negate, negate]
      split_ifs
      · exact .pure arg
      · exact node_agrees rfl
  | binary i op left right =>
      intro b _ _
      rw [negate, negate]
      exact node_agrees rfl
  | nary i op args ih =>
      intro b hb ht
      by_cases hop : op = .add
      · subst hop
        exact negate_sum_agrees ih hb ht
      · rw [negate, negate]
        · exact node_agrees rfl
        · exact fun _ _ h _ => hop h
        · exact fun _ _ h _ => hop h
  | truth i v =>
      intro b _ _
      rw [negate, negate]
      exact .lift _
  | not i arg =>
      intro b _ _
      rw [negate, negate]
      exact .pure arg
  | compare i op left right =>
      intro b hb ht
      rw [negate, negate]
      cases op.opposite? with
      | some op' => exact (node_agrees (d := .compare 0 op' left right) (if_pos (hb.proper ht).1)).surely
      | none => exact node_agrees rfl
  | junction i op args ih =>
      intro b hb ht
      obtain ⟨p, ps, rfl⟩ := List.exists_cons_of_ne_nil (hb.proper ht).1
      have hargs : ∀ q ∈ p :: ps, b.Holds q := hb.children ht
      rw [List.forall_mem_cons] at ih hargs
      rw [negate, negate]
      refine (ih.1 b hb hargs.1).bind (Build.boolNot_runs hb hargs.1) fun n c hle hc hn => ?_
      exact negateJoin_agrees op.dual ih.2 hc hn.held fun q hq => (hargs.2 q hq).mono hle

theorem unary_agrees (hb : b.Consistent) (op : UnaryOp) (hx : b.Holds x) :
    Agrees (MonadTerms.unary op x) (MonadTerms.unary op x) b := by
  cases op with
  | not => exact bitNot_agrees x
  | neg => exact negate_agrees x b hb hx

end Guarded

/-! ### Requests -/

namespace Request

open Guarded

variable {b : Builder} {k : Ty} {x y : Term .word}

theorem eq_refusing_ok {g : Guarded (Term k)} {act : Build (Term k)} (h : Agrees g act b) :
    g b = refusing (Except.ok <$> act) b :=
  h

theorem sized_eq_refusing {g : Guarded (Term k)} {make : Term .word → Term .word → Build (Term k)}
    (h : x.width = y.width → Agrees g (make x y) b) :
    MonadTerms.sized .sizes x y g b = refusing (Build.Checked.binary make x y) b := by
  unfold Build.Checked.binary
  split_ifs with hwidth
  · exact (h hwidth).sized .sizes hwidth
  · exact congrFun (if_neg hwidth) b

/-- On held operands no check fails but the one that refuses operands. -/
theorem guarded_eq (hb : b.Consistent) (r : Request k) (hr : r.Operands b.Holds) : r.guarded b = refusing r.run b := by
  cases r with
  | int v width => exact eq_refusing_ok (.lift _)
  | symbol name width => exact eq_refusing_ok (.lift _)
  | unary op x => exact eq_refusing_ok (unary_agrees hb op hr)
  | nary op x y => exact sized_eq_refusing fun h => nary_agrees hb ⟨hr.1, rfl⟩ ⟨hr.2, h.symm⟩ op
  | sub x y =>
      have hneg := Build.neg_runs hb ⟨hr.2, rfl⟩
      have hx : (Build.neg y b).2.HoldsAt x.width x := ⟨hr.1.mono hneg.grows, rfl⟩
      refine (bind_of_ok (negate_agrees y b hb hr.2)).trans (sized_eq_refusing fun h => ?_)
      exact add_agrees hneg.consistent hx ⟨hneg.post.held, h.symm⟩
  | binary op x y => exact sized_eq_refusing fun h => binary_agrees ⟨hr.1, rfl⟩ ⟨hr.2, h.symm⟩ op
  | ite guard yes no =>
      change MonadTerms.sized .branchSizes yes no (MonadTerms.ite guard yes no : Guarded (Term .word)) b =
        refusing (Build.Checked.ite guard yes no) b
      unfold Build.Checked.ite
      split_ifs with h
      · exact (ite_agrees ⟨hr.2.1, rfl⟩ ⟨hr.2.2, h.symm⟩ guard).sized .branchSizes h
      · exact congrFun (if_neg h) b
  | truth v => exact eq_refusing_ok (.lift _)
  | compare op x y => exact sized_eq_refusing fun h => compare_agrees ⟨hr.1, rfl⟩ ⟨hr.2, h.symm⟩ op
  | notEqual x y =>
      change (MonadTerms.notEqual x y : Guarded Cond) b = refusing (Build.Checked.binary Build.notEqual x y) b
      by_cases h : x.width = y.width
      · have hx : b.HoldsAt x.width x := ⟨hr.1, rfl⟩
        have hy : b.HoldsAt x.width y := ⟨hr.2, h.symm⟩
        rw [Build.Checked.binary, if_pos h]
        exact ((compare_agrees hx hy .eq).sized .sizes h).bind (Build.compare_runs hb .eq hx hy)
          fun p c _ hc hp => negate_agrees p c hc hp.held
      · rw [Build.Checked.binary, if_neg h]
        exact bind_of_error (congrFun (if_neg h) b)
  | boolNot p => exact eq_refusing_ok (negate_agrees p b hb hr)
  | join op p q => exact eq_refusing_ok (.lift _)
  | all ps => exact eq_refusing_ok (.lift _)

end Request
end Pathwise
