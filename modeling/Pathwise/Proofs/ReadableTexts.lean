import Mathlib.Data.List.Basic
import Pathwise.Proofs.PairRuns

/-! Texts that can be read back. A text is split in one way where a character tells that a part has ended. Test
cases are told apart by their texts if no name has an equals sign: a name goes on up to one, and a number up to a
comma. -/

namespace Pathwise

namespace Text

/-- The text does not go on with such a character. -/
def Stops (P : Char → Bool) (cs : List Char) : Prop := ∀ c ∈ cs.head?, P c = false

variable {P : Char → Bool} {xs ys r r' : List Char}

theorem stops_cons {c : Char} : Stops P (c :: xs) ↔ P c = false := by simp [Stops]

theorem takeWhile_append (hxs : ∀ c ∈ xs, P c = true) (hr : Stops P r) : (xs ++ r).takeWhile P = xs := by
  rw [List.takeWhile_append_of_pos hxs]
  cases r with
  | nil => exact List.append_nil xs
  | cons c r => rw [List.takeWhile_cons_of_neg (by simp [stops_cons.mp hr]), List.append_nil]

/-- A text is split in one way, if the characters tell on which side they are. -/
theorem append_inj (hxs : ∀ c ∈ xs, P c = true) (hys : ∀ c ∈ ys, P c = true) (hr : Stops P r) (hr' : Stops P r')
    (h : xs ++ r = ys ++ r') : xs = ys ∧ r = r' := by
  have heq : xs = ys := by rw [← takeWhile_append hxs hr, h, takeWhile_append hys hr']
  exact ⟨heq, List.append_cancel_left (heq ▸ h)⟩

end Text

namespace Assignments

/-- The characters after the first assignment. -/
def continued : Assignments → List Char
  | [] => []
  | a :: as => ", ".toList ++ (text (a :: as)).toList

theorem toList_text_cons (a : Assignment) (as : Assignments) :
    (text (a :: as)).toList = a.name.toList ++ '=' :: ((toString a.value.toInt).toList ++ continued as) := by
  have hfirst : s!"{a.name}={a.value.toInt}".toList = a.name.toList ++ '=' :: (toString a.value.toInt).toList := by
    rw [String.toList_append, String.toList_append, List.append_assoc]
    rfl
  unfold text
  rw [String.toList_intercalate, List.map_cons, List.map_cons, hfirst]
  cases as with
  | nil =>
      rw [continued, List.append_nil]
      exact List.intercalate_singleton
  | cons b bs =>
      rw [continued, text, String.toList_intercalate, List.map_cons, List.map_cons, List.intercalate_cons_cons,
        List.append_assoc, List.append_assoc]
      rfl

theorem stops_continued (as : Assignments) : Text.Stops (· != ',') as.continued := by
  cases as with
  | nil => exact nofun
  | cons a as => exact Text.stops_cons.mpr rfl

theorem ne_comma_of_mem_toString {n : Int} : ∀ c ∈ (toString n).toList, (c != ',') = true := by
  intro c hc
  rw [bne_iff_ne]
  rintro rfl
  exact absurd (isDigit_of_mem_toString hc) (by decide)

theorem ne_equals_of_not_mem {name : String} (h : '=' ∉ name.toList) : ∀ c ∈ name.toList, (c != '=') = true :=
  fun _ hc => bne_iff_ne.mpr fun heq => h (heq ▸ hc)

/-- The first assignment is read back, and what follows it is left. -/
theorem head_inj {a b : Assignment} {as bs : Assignments} (ha : '=' ∉ a.name.toList) (hb : '=' ∉ b.name.toList)
    (h : text (a :: as) = text (b :: bs)) : a = b ∧ continued as = continued bs := by
  have hlist := congrArg String.toList h
  rw [toList_text_cons, toList_text_cons] at hlist
  have hstops : ∀ cs, Text.Stops (· != '=') ('=' :: cs) := fun cs => Text.stops_cons.mpr rfl
  obtain ⟨hname, hrest⟩ :=
    Text.append_inj (ne_equals_of_not_mem ha) (ne_equals_of_not_mem hb) (hstops _) (hstops _) hlist
  obtain ⟨hvalue, hrest⟩ := Text.append_inj ne_comma_of_mem_toString ne_comma_of_mem_toString
    (stops_continued as) (stops_continued bs) (List.tail_eq_of_cons_eq hrest)
  refine ⟨?_, hrest⟩
  have hrepr := String.toList_inj.mp hvalue
  rw [Int.toString_eq_repr, Int.toString_eq_repr, Int.repr_inj, Int64.toInt_inj] at hrepr
  obtain ⟨n, v⟩ := a
  obtain ⟨n', v'⟩ := b
  cases String.toList_inj.mp hname
  cases hrepr
  rfl

theorem continued_inj {as bs : Assignments} (has : ∀ a ∈ as, '=' ∉ a.name.toList)
    (hbs : ∀ b ∈ bs, '=' ∉ b.name.toList) (h : continued as = continued bs) : as = bs := by
  induction as generalizing bs with
  | nil =>
      cases bs with
      | nil => rfl
      | cons b bs => cases h
  | cons a as ih =>
      cases bs with
      | nil => cases h
      | cons b bs =>
          rw [List.forall_mem_cons] at has hbs
          obtain ⟨rfl, hrest⟩ := head_inj has.1 hbs.1 (String.toList_inj.mp (List.append_cancel_left h))
          rw [ih has.2 hbs.2 hrest]

/-- Test cases whose names have no equals sign have different texts. -/
theorem text_inj {as bs : Assignments} (has : ∀ a ∈ as, '=' ∉ a.name.toList) (hbs : ∀ b ∈ bs, '=' ∉ b.name.toList)
    (h : as.text = bs.text) : as = bs := by
  have hne : ∀ (a : Assignment) (as : Assignments), text [] ≠ text (a :: as) := by
    intro a as heq
    have hlist := congrArg String.toList heq
    rw [toList_text_cons] at hlist
    exact List.append_ne_nil_of_right_ne_nil _ (List.cons_ne_nil _ _) hlist.symm
  refine continued_inj has hbs ?_
  cases as with
  | nil =>
      cases bs with
      | nil => rfl
      | cons b bs => exact absurd h (hne b bs)
  | cons a as =>
      cases bs with
      | nil => exact absurd h.symm (hne a as)
      | cons b bs => rw [continued, continued, h]

end Assignments
end Pathwise
