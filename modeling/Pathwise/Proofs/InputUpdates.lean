import Pathwise.Proofs.Inputs

/-! Updates of input maps. Putting an input into a map changes what one name stands for, and adds the name at the end
if it is new. So a map made from a list has its names in the order in which they first appear there. Applying a model is
a sequence of such updates, one for each symbolic input that the model binds, and doing it again changes nothing. Listing
the values of a map and reading the list gives a map with the same names and values. -/

namespace Pathwise
namespace InputMap

variable {m : InputMap} {model : Model} {name : String}

/-! ### Names -/

theorem mem_names_iff (m : InputMap) (name : String) : name ∈ m.names ↔ ∃ i, m.find? name = some i := by
  rw [← Option.isSome_iff_exists, find?, List.find?_isSome, names, List.mem_map]
  simp only [beq_iff_eq]

theorem find?_eq_none_iff : m.find? name = none ↔ name ∉ m.names := by
  rw [mem_names_iff, ← Option.isSome_iff_exists, Option.not_isSome_iff_eq_none]

/-- A name behind others is kept if it is not among them. -/
theorem eraseDups_concat (names : List String) (name : String) :
    (names ++ [name]).eraseDups = if name ∈ names then names.eraseDups else names.eraseDups ++ [name] := by
  rw [List.eraseDups_append]
  split_ifs with hmem
  · simp [List.removeAll, hmem]
  · simp [List.removeAll, hmem, List.eraseDups_cons]

theorem ofList_concat (is : List Input) (i : Input) : ofList (is ++ [i]) = (ofList is).set i :=
  List.foldl_append

/-- The names of a map that a list is read as, in the order in which they first appear. -/
theorem names_ofList (is : List Input) : (ofList is).names = (is.map (·.name)).eraseDups := by
  induction is using List.reverseRecOn with
  | nil => rfl
  | append_singleton is i ih =>
      rw [ofList_concat, names_set, ih, List.map_append, List.map_singleton, eraseDups_concat]
      simp only [List.mem_eraseDups]

theorem nodup_ofList (is : List Input) : (ofList is).names.Nodup := by
  induction is using List.reverseRecOn with
  | nil => exact List.nodup_nil
  | append_singleton is i ih =>
      rw [ofList_concat]
      exact nodup_set ih i

theorem names_inputMap (as : Assignments) : as.inputMap.names = (as.map (·.name)).eraseDups := by
  rw [Assignments.inputMap, names_ofList, List.map_map]
  rfl

/-! ### One input -/

/-- The second map is the first with an input put in: only its name stands for something else, and a new name comes
last. -/
structure Puts (m : InputMap) (i : Input) (m' : InputMap) : Prop where
  found : m'.find? i.name = some i
  others : ∀ name, name ≠ i.name → m'.find? name = m.find? name
  names : m'.names = if i.name ∈ m.names then m.names else m.names ++ [i.name]

theorem puts_set (m : InputMap) (i : Input) : m.Puts i (m.set i) where
  found := by rw [find?_set, if_pos rfl]
  others name h := by rw [find?_set, if_neg (Ne.symm h)]
  names := names_set m i

end InputMap

/-! ### A model -/

theorem Input.updated_updated (model : Model) (i : Input) : (i.updated model).updated model = i.updated model := by
  unfold updated
  by_cases hsymbolic : i.symbolic = true
  · cases hfind : model.find? i.name <;> simp [hsymbolic, hfind]
  · simp [hsymbolic]

namespace InputMap

variable {m : InputMap} {model : Model} {name : String}

/-- The second map is the first with a model applied: the symbolic inputs that the model binds have its values, all else
is kept, and the model has nothing left to change. -/
structure Takes (m : InputMap) (model : Model) (m' : InputMap) : Prop where
  names : m'.names = m.names
  symbolic : m'.inputs.map (·.symbolic) = m.inputs.map (·.symbolic)
  bound : ∀ name i w, m.find? name = some i → i.symbolic = true → model.find? name = some w →
    m'.find? name = some { i with value := w.toInt64 }
  kept : ∀ name i, m.find? name = some i → i.symbolic = false ∨ model.find? name = none → m'.find? name = some i
  again : m'.applyModel model = m'

theorem takes_applyModel (m : InputMap) (model : Model) : m.Takes model (m.applyModel model) where
  names := names_applyModel m model
  symbolic := by
    rw [applyModel_eq, List.map_map]
    exact List.map_congr_left fun i _ => Input.symbolic_updated model i
  bound name i w h hsymbolic hw := (find?_applyModel h model).2 w hsymbolic hw
  kept name i h := (find?_applyModel h model).1
  again := by
    rw [applyModel_eq, applyModel_eq, List.map_map]
    congr 1
    exact List.map_congr_left fun i _ => Input.updated_updated model i

/-- The update that a model makes for one name of the base. -/
def update (base : InputMap) (model : Model) (m : InputMap) (name : String) : InputMap :=
  match base.find? name, model.find? name with
  | some i, some w => if i.symbolic then m.set { i with value := w.toInt64 } else m
  | _, _ => m

theorem replace_middle {i j : Input} {js ks : List Input} (hname : j.name = i.name)
    (hnew : i.name ∉ js.map (·.name)) : replace i (js ++ j :: ks) = js ++ i :: ks := by
  induction js with
  | nil => rw [List.nil_append, replace, if_pos hname, List.nil_append]
  | cons k js ih =>
      rw [List.map_cons, List.mem_cons, not_or] at hnew
      rw [List.cons_append, replace, if_neg (Ne.symm hnew.1), ih hnew.2, List.cons_append]

theorem update_middle {base : InputMap} {i : Input} {js ks : List Input} (hbase : base.find? i.name = some i)
    (hnew : i.name ∉ js.map (·.name)) :
    base.update model ⟨js ++ i :: ks⟩ i.name = ⟨js ++ i.updated model :: ks⟩ := by
  have hset : ∀ v, InputMap.set ⟨js ++ i :: ks⟩ { i with value := v } = ⟨js ++ { i with value := v } :: ks⟩ :=
    fun v => congrArg InputMap.mk (replace_middle rfl hnew)
  unfold update Input.updated
  rw [hbase]
  by_cases hsymbolic : i.symbolic = true
  · cases hfind : model.find? i.name with
    | none => simp only [ite_self]
    | some w =>
        simp only [if_pos hsymbolic]
        exact hset _
  · cases hfind : model.find? i.name with
    | none => simp only [ite_self]
    | some w => simp only [if_neg hsymbolic]

/-- Applying a model is one update after the other. -/
theorem foldl_update (hm : m.names.Nodup) : m.names.foldl (m.update model) m = m.applyModel model := by
  -- What comes before is updated, what comes after is not yet.
  suffices h : ∀ js ks : List Input, m.inputs = js ++ ks →
      (ks.map (·.name)).foldl (m.update model) ⟨js.map (Input.updated model) ++ ks⟩ = m.applyModel model from
    h [] m.inputs rfl
  intro js ks
  induction ks generalizing js with
  | nil =>
      intro hsplit
      rw [applyModel_eq, hsplit, List.append_nil, List.append_nil]
      rfl
  | cons i ks ih =>
      intro hsplit
      have hmem : i ∈ m.inputs := hsplit ▸ List.mem_append_right js List.mem_cons_self
      have hnew : i.name ∉ (js.map (Input.updated model)).map (·.name) := by
        have hnames : (js.map (Input.updated model)).map (·.name) = js.map (·.name) := by
          rw [List.map_map]
          exact List.map_congr_left fun j _ => Input.name_updated model j
        rw [names, hsplit, List.map_append, List.map_cons] at hm
        rw [hnames]
        exact fun hi => (List.nodup_append.mp hm).2.2 _ hi _ List.mem_cons_self rfl
      rw [List.map_cons, List.foldl_cons, update_middle (find?_of_mem hm hmem) hnew, ← ih (js ++ [i])]
      · simp
      · rw [hsplit, List.append_assoc]
        rfl

/-! ### Listing and reading -/

/-- The second map has the names and the values of the first, all as symbolic inputs, and lists as it. -/
structure Rereads (m m' : InputMap) : Prop where
  names : m'.names = m.names
  values : ∀ name, m'.find? name = (m.find? name).map fun i => { i with symbolic := true }
  assignments : m'.assignments = m.assignments

theorem rereads_inputMap (h : m.names.Nodup) : m.Rereads m.assignments.inputMap := by
  rw [inputMap_assignments h]
  exact ⟨List.map_map, find?_map (f := fun i => { i with symbolic := true }) (fun _ => rfl) m, List.map_map⟩

end InputMap
end Pathwise
