import Pathwise.Proofs.AnswerStores
import Pathwise.Proofs.HashConsing
import Pathwise.Proofs.ReadableTexts

/-! How formulas are written. The text of a term is a name or a number, a choice with its operands in brackets, an
operand behind a sign, or operands with a sign between them (`Shape`), and an operand is put in brackets unless it is a
leaf. No two operators of a kind share their sign. A term is legible if its names are identifiers, its words have one
width, and its operators have the operands that they need to be seen. -/

namespace Pathwise

/-! ### Characters -/

namespace Text

/-- The characters of names and numbers. -/
def isNameChar (c : Char) : Bool := c.isAlphanum || c == '_'

/-- A letter or an underscore, and then letters, digits and underscores. -/
def isIdentifier (name : String) : Bool :=
  match name.toList with
  | [] => false
  | c :: cs => (c.isAlpha || c == '_') && cs.all isNameChar

/-- The characters of the signs in front of an operand. -/
def isSignChar (c : Char) : Bool := !isNameChar c && c != '('

/-- What can follow a formula. -/
def Ends (cs : List Char) : Prop := ∀ c ∈ cs.head?, c = ')' ∨ c = ','

/-- What can follow an operand. -/
def EndsOperand (cs : List Char) : Prop := ∀ c ∈ cs.head?, c = ' ' ∨ c = ')' ∨ c = ','

variable {r : List Char}

theorem Ends.operand (h : Ends r) : EndsOperand r := fun c hc => Or.inr (h c hc)

theorem Ends.not_blank (h : Ends (' ' :: r)) : False := by
  rcases h ' ' rfl with h | h <;> cases h

theorem EndsOperand.stops (h : EndsOperand r) : Stops isNameChar r := by
  intro c hc
  rcases h c hc with rfl | rfl | rfl <;> rfl

theorem isNameChar_of_isIdentifier {name : String} (h : isIdentifier name = true) :
    ∃ c cs, name.toList = c :: cs ∧ c ≠ '0' ∧ ∀ d ∈ c :: cs, isNameChar d = true := by
  unfold isIdentifier at h
  split at h
  · cases h
  · rename_i c cs hname
    rw [Bool.and_eq_true, List.all_eq_true] at h
    refine ⟨c, cs, hname, ?_, List.forall_mem_cons.mpr ⟨?_, h.2⟩⟩
    · rintro rfl
      exact absurd h.1 (by decide)
    · rw [isNameChar, Char.isAlphanum, Bool.or_right_comm, h.1, Bool.true_or]

theorem isNameChar_digitChar : ∀ d < 16, isNameChar (Nat.digitChar d) = true := by decide

theorem isNameChar_toDigits (n : Nat) : ∀ c ∈ Nat.toDigits 16 n, isNameChar c = true := by
  induction n using Nat.strongRecOn with
  | ind n ih =>
      rw [Nat.toDigits_eq_if (by decide)]
      split_ifs with hn
      · exact List.forall_mem_singleton.mpr (isNameChar_digitChar n hn)
      · refine List.forall_mem_append.mpr ⟨ih (n / 16) (by omega), List.forall_mem_singleton.mpr ?_⟩
        exact isNameChar_digitChar (n % 16) (Nat.mod_lt n (by decide))

end Text

theorem Word.toList_hex (a : Word) : a.hex.toList = '0' :: 'x' :: Nat.toDigits 16 a.value := by
  simp [Word.hex]

/-- Words of one width have different texts. -/
theorem Word.hex_inj {a a' : Word} (hwidth : a.width = a'.width) (h : a.hex = a'.hex) : a = a' := by
  have hdigits : Nat.toDigits 16 a.value = Nat.toDigits 16 a'.value := by
    have hlist := congrArg String.toList h
    rw [Word.toList_hex, Word.toList_hex] at hlist
    exact List.tail_eq_of_cons_eq (List.tail_eq_of_cons_eq hlist)
  have hvalue : a.value = a'.value := by
    rw [← Text.hexValue_toDigits a.value, hdigits, Text.hexValue_toDigits]
  cases a
  cases a'
  cases hwidth
  cases hvalue
  rfl

/-! ### Nodes and shapes -/

namespace Term

mutual
/-- Every node of the term is such a one. -/
def Every (P : ∀ {k : Ty}, Term k → Prop) {k : Ty} : Term k → Prop
  | .symbol i name width => P (.symbol i name width)
  | .const i c => P (.const i c)
  | .ite i cond yes no => P (.ite i cond yes no) ∧ cond.Every P ∧ yes.Every P ∧ no.Every P
  | .unary i op arg => P (.unary i op arg) ∧ arg.Every P
  | .binary i op left right => P (.binary i op left right) ∧ left.Every P ∧ right.Every P
  | .nary i op args => P (.nary i op args) ∧ everyWord P args
  | .truth i b => P (.truth i b)
  | .not i arg => P (.not i arg) ∧ arg.Every P
  | .compare i op left right => P (.compare i op left right) ∧ left.Every P ∧ right.Every P
  | .junction i op args => P (.junction i op args) ∧ everyCond P args

def everyWord (P : ∀ {k : Ty}, Term k → Prop) : List (Term .word) → Prop
  | [] => True
  | t :: ts => t.Every P ∧ everyWord P ts

def everyCond (P : ∀ {k : Ty}, Term k → Prop) : List (Term .bool) → Prop
  | [] => True
  | t :: ts => t.Every P ∧ everyCond P ts
end

variable {P : ∀ {k : Ty}, Term k → Prop} {k l : Ty}

theorem everyWord_iff {ts : List (Term .word)} : everyWord P ts ↔ ∀ t ∈ ts, t.Every P := by
  induction ts with
  | nil => simp [everyWord]
  | cons t ts ih => rw [everyWord, ih, List.forall_mem_cons]

theorem everyCond_iff {ps : List Cond} : everyCond P ps ↔ ∀ p ∈ ps, p.Every P := by
  induction ps with
  | nil => simp [everyCond]
  | cons p ps ih => rw [everyCond, ih, List.forall_mem_cons]

theorem every_iff {t : Term k} : t.Every P ↔ P t ∧ t.Children fun u => u.Every P := by
  cases t with
  | nary => rw [Every, everyWord_iff]; rfl
  | junction => rw [Every, everyCond_iff]; rfl
  | symbol | const | truth => exact (and_iff_left trivial).symm
  | _ => rw [Every]; rfl

end Term

/-- A term of either sort. -/
abbrev AnyTerm := (k : Ty) × Term k

namespace AnyTerm

/-- The term without numbers. -/
def tree (t : AnyTerm) : AnyTerm := ⟨t.1, t.2.bare⟩

def chars (t : AnyTerm) : List Char := t.2.text.toList

/-- The term as an operand is written. -/
def operand (t : AnyTerm) : List Char := (Term.bracketed t.2.isLeaf t.2.text).toList

end AnyTerm

/-- The operators that stand before their operand. -/
inductive Mark where
  | word (op : UnaryOp)
  | cond
deriving DecidableEq

/-- The operators that stand between their operands. -/
inductive Joint where
  | binary (op : BinaryOp)
  | nary (op : NaryOp)
  | compare (op : CompareOp)
  | junction (op : Connective)

namespace Mark

def sign : Mark → List Char
  | word op => op.sign.toList
  | cond => "!".toList

theorem sign_inj {m m' : Mark} (h : m.sign = m'.sign) : m = m' := by
  revert h
  rcases m with ⟨_ | _⟩ | _ <;> rcases m' with ⟨_ | _⟩ | _ <;> decide

theorem isSignChar_sign (m : Mark) : m.sign ≠ [] ∧ ∀ c ∈ m.sign, Text.isSignChar c = true := by
  rcases m with ⟨_ | _⟩ | _ <;> exact ⟨by decide, List.all_eq_true.mp (by decide)⟩

end Mark

namespace Joint

def sign : Joint → List Char
  | binary op => op.sign.toList
  | nary op => op.sign.toList
  | compare op => op.sign.toList
  | junction op => op.sign.toList

theorem sign_inj {j j' : Joint} (h : j.sign = j'.sign) : j = j' := by
  cases j <;> cases j' <;> rename_i op op' <;> cases op <;> cases op' <;> first | rfl | exact absurd h (by decide)

theorem sign_ne_blank (j : Joint) : ∀ c ∈ j.sign, (c != ' ') = true := by
  cases j <;> rename_i op <;> cases op <;> exact List.all_eq_true.mp (by decide)

end Joint

/-- How a text is made up. -/
inductive Shape where
  | leaf (name : List Char)
  | choice (guard yes no : AnyTerm)
  | signed (mark : Mark) (arg : AnyTerm)
  | chain (joint : Joint) (args : List AnyTerm)

namespace Shape

/-- Operands, each with the sign in front. -/
def links (joint : Joint) (args : List AnyTerm) : List Char :=
  args.flatMap fun a => ' ' :: (joint.sign ++ ' ' :: a.operand)

def chars : Shape → List Char
  | leaf name => name
  | choice guard yes no =>
    "ITE(".toList ++ (guard.chars ++ ',' :: ' ' :: (yes.chars ++ ',' :: ' ' :: (no.chars ++ [')'])))
  | signed mark arg => mark.sign ++ arg.operand
  | chain _ [] => []
  | chain joint (a :: args) => a.operand ++ links joint args

def children : Shape → List AnyTerm
  | leaf _ => []
  | choice guard yes no => [guard, yes, no]
  | signed _ arg => [arg]
  | chain _ args => args

/-- The shapes are of one kind, with the same name or operator and, if their sorts are, the same children. -/
def Agrees : Shape → Shape → Prop
  | leaf name, leaf name' => name = name'
  | choice guard yes no, choice guard' yes' no' =>
    (guard.1 = guard'.1 → guard.tree = guard'.tree) ∧ (yes.1 = yes'.1 → yes.tree = yes'.tree) ∧
      (no.1 = no'.1 → no.tree = no'.tree)
  | signed mark arg, signed mark' arg' => mark = mark' ∧ (arg.1 = arg'.1 → arg.tree = arg'.tree)
  | chain joint args, chain joint' args' =>
    joint = joint' ∧ ((∀ a ∈ args, ∀ a' ∈ args', a.1 = a'.1) → args.map AnyTerm.tree = args'.map AnyTerm.tree)
  | _, _ => False

end Shape

namespace Term

variable {k l : Ty}

def shape {k : Ty} : Term k → Shape
  | .symbol _ name _ => .leaf name.toList
  | .const _ c => .leaf c.hex.toList
  | .ite _ cond yes no => .choice ⟨_, cond⟩ ⟨_, yes⟩ ⟨_, no⟩
  | .unary _ op arg => .signed (.word op) ⟨_, arg⟩
  | .binary _ op left right => .chain (.binary op) [⟨_, left⟩, ⟨_, right⟩]
  | .nary _ op args => .chain (.nary op) (args.map (⟨_, ·⟩))
  | .truth _ v => .leaf (truthText v).toList
  | .not _ arg => .signed .cond ⟨_, arg⟩
  | .compare _ op left right => .chain (.compare op) [⟨_, left⟩, ⟨_, right⟩]
  | .junction _ op args => .chain (.junction op) (args.map (⟨_, ·⟩))

theorem toList_intercalate_operands (joint : Joint) {sign : String} (hsign : joint.sign = sign.toList)
    (ts : List (Term k)) :
    ((" " ++ sign ++ " ").intercalate (ts.map fun t => bracketed t.isLeaf t.text)).toList =
      (Shape.chain joint (ts.map (⟨k, ·⟩))).chars := by
  rw [String.toList_intercalate]
  cases ts with
  | nil => rfl
  | cons t ts =>
      simp only [List.map_cons, Shape.chars]
      induction ts generalizing t with
      | nil => simp [AnyTerm.operand, Shape.links]
      | cons u ts ih =>
          rw [List.map_cons, List.map_cons, List.intercalate_cons_cons, ih u]
          simp [AnyTerm.operand, Shape.links, hsign]

/-- The text of a term is that of its shape. -/
theorem chars_shape (t : Term k) : t.text.toList = t.shape.chars := by
  cases t with
  | nary i op args =>
      rw [text, wordTexts_eq_map]
      exact toList_intercalate_operands (.nary op) rfl args
  | junction i op args =>
      rw [text, condTexts_eq_map]
      exact toList_intercalate_operands (.junction op) rfl args
  | _ => simp [text, shape, Shape.chars, Shape.links, AnyTerm.chars, AnyTerm.operand, Mark.sign, Joint.sign]

/-- What makes the text of a node clear: names are identifiers, words are of one width, and operators stand between
operands. -/
def Clear (w : Nat) {k : Ty} : Term k → Prop
  | .symbol _ name width => Text.isIdentifier name = true ∧ width = w
  | .const _ c => c.width = w
  | .nary _ _ args => 2 ≤ args.length
  | .junction _ _ args => 2 ≤ args.length
  | _ => True

/-- The node is clear and so is everything below. -/
def Legible (w : Nat) {k : Ty} (t : Term k) : Prop := t.Every fun u => u.Clear w

end Term

open Text

variable {w : Nat} {r r' : List Char}

namespace Shape

/-- What makes the text of a shape clear. -/
def Clear : Shape → Prop
  | leaf name => name ≠ [] ∧ ∀ c ∈ name, isNameChar c = true
  | choice .. | signed .. => True
  | chain _ args => 2 ≤ args.length

end Shape

namespace Term

variable {k l : Ty}

theorem shape_of_isLeaf {t : Term k} (h : t.isLeaf = true) : t.shape = .leaf t.text.toList := by
  cases t with
  | symbol | const | truth => rfl
  | _ => cases h

theorem clear_shape {t : Term k} (h : t.Clear w) : t.shape.Clear := by
  cases t with
  | symbol i name width =>
      obtain ⟨c, cs, hname, -, hchars⟩ := isNameChar_of_isIdentifier h.1
      change name.toList ≠ [] ∧ ∀ c ∈ name.toList, isNameChar c = true
      rw [hname]
      exact ⟨List.cons_ne_nil _ _, hchars⟩
  | const i c =>
      change c.hex.toList ≠ [] ∧ ∀ d ∈ c.hex.toList, isNameChar d = true
      rw [Word.toList_hex]
      refine ⟨List.cons_ne_nil _ _, List.forall_mem_cons.mpr ⟨rfl, List.forall_mem_cons.mpr ⟨rfl, ?_⟩⟩⟩
      exact isNameChar_toDigits c.value
  | truth i v => cases v <;> exact ⟨by decide, List.all_eq_true.mp (by decide)⟩
  | ite | unary | not => trivial
  | binary | compare => exact le_refl 2
  | nary i op args => exact le_of_le_of_eq h (List.length_map _).symm
  | junction i op args => exact le_of_le_of_eq h (List.length_map _).symm

/-- Leaves of one sort are told apart by their texts. -/
theorem bare_eq_of_leaf {t u : Term k} (ht : t.Clear w) (hu : u.Clear w) (hleaf : t.isLeaf = true)
    (hleaf' : u.isLeaf = true) (h : t.text = u.text) : t.bare = u.bare := by
  have hname : ∀ {name : String} {c : Word}, isIdentifier name = true → name ≠ c.hex := by
    rintro name c hname rfl
    obtain ⟨d, ds, hlist, hne, -⟩ := isNameChar_of_isIdentifier hname
    rw [Word.toList_hex] at hlist
    exact hne (List.head_eq_of_cons_eq hlist).symm
  cases t with
  | symbol i name width =>
      cases u with
      | symbol j name' width' =>
          have h : name = name' := h
          rw [bare, bare, h, ht.2, hu.2]
      | const j c => exact absurd h (hname ht.1)
      | _ => cases hleaf'
  | const i c =>
      cases u with
      | symbol j name' width' => exact absurd h.symm (hname hu.1)
      | const j c' => rw [bare, bare, Word.hex_inj (ht.trans hu.symm) h]
      | _ => cases hleaf'
  | truth i v =>
      cases u with
      | truth j v' =>
          have h : truthText v = truthText v' := h
          have hvalue : v = v' := by revert h; cases v <;> cases v' <;> decide
          rw [bare, bare, hvalue]
      | _ => cases hleaf'
  | _ => cases hleaf

end Term

end Pathwise
