import Pathwise.Proofs.Evaluation
import Pathwise.Symbolic.Inputs
import Pathwise.Symbolic.Value

/-! Input maps. Inputs are read as a model and a valuation: a symbolic input stands for the symbol of its
name, at the width of integers. Maps of one shape differ in the values of symbolic inputs only, and applying a
model keeps the shape. -/

namespace Pathwise

/-! ### Inputs as a valuation -/

namespace InputMap

/-- The words of the symbolic inputs. -/
def model (m : InputMap) : Model :=
  ⟨(m.inputs.filter (·.symbolic)).map fun i => (i.name, Word.ofInt64 i.value)⟩

/-- The symbols that the symbolic inputs stand for. -/
def symbols (m : InputMap) : List (String × Nat) :=
  (m.inputs.filter (·.symbolic)).map fun i => (i.name, intWidth)

/-- The valuation that gives the symbolic inputs their values. -/
def valuation (m : InputMap) : Valuation := Valuation.override (fun _ _ => 0) m.model

theorem name_of_find? {m : InputMap} {name : String} {i : Input} (h : m.find? name = some i) : i.name = name := by
  have := List.find?_some h
  exact beq_iff_eq.mp this

theorem find?_model (m : InputMap) (name : String) :
    m.model.find? name =
      ((m.inputs.filter (·.symbolic)).find? (·.name == name)).map fun i => Word.ofInt64 i.value := by
  unfold model Model.find?
  rw [List.find?_map, Option.map_map]
  rfl

theorem find?_model_of_find? {m : InputMap} {name : String} {i : Input} (h : m.find? name = some i)
    (hsym : i.symbolic = true) : m.model.find? name = some (Word.ofInt64 i.value) := by
  obtain ⟨hname, before, after, hsplit, hbefore⟩ := List.find?_eq_some_iff_append.mp h
  have hfirst : (m.inputs.filter (·.symbolic)).find? (·.name == name) = some i := by
    rw [List.find?_filter, List.find?_eq_some_iff_append]
    refine ⟨by simp [hsym, hname], before, after, hsplit, fun j hj => ?_⟩
    have := hbefore j hj
    simp_all
  rw [find?_model, hfirst]
  rfl

theorem find?_of_mem {m : InputMap} (hm : m.names.Nodup) {i : Input} (hi : i ∈ m.inputs) :
    m.find? i.name = some i := by
  obtain ⟨before, after, hsplit⟩ := List.append_of_mem hi
  refine List.find?_eq_some_iff_append.mpr ⟨beq_self_eq_true i.name, before, after, hsplit, fun j hj => ?_⟩
  rw [names, hsplit, List.map_append, List.nodup_append] at hm
  have hne := hm.2.2 j.name (List.mem_map_of_mem hj) i.name (List.mem_map_of_mem List.mem_cons_self)
  rw [Bool.not_eq_true', beq_eq_false_iff_ne]
  exact hne

/-- A symbolic input is a symbol whose value is the input's. -/
theorem valuation_of_find? {m : InputMap} {name : String} {i : Input} (h : m.find? name = some i)
    (hsym : i.symbolic = true) :
    m.valuation i.name intWidth = i.value.toBitVec ∧ (i.name, intWidth) ∈ m.symbols := by
  constructor
  · rw [valuation, Valuation.override, name_of_find? h, find?_model_of_find? h hsym]
    have hwidth : (Word.ofInt64 i.value).width = intWidth := rfl
    dsimp only
    rw [if_pos hwidth]
    exact Word.bits_ofInt64 _
  · have hmem : i ∈ m.inputs.filter (·.symbolic) := List.mem_filter.mpr ⟨List.mem_of_find?_eq_some h, hsym⟩
    exact List.mem_map.mpr ⟨i, hmem, rfl⟩

theorem covers_symbols (m : InputMap) : m.model.Covers m.symbols := by
  intro s hs
  obtain ⟨i, hi, rfl⟩ := List.mem_map.mp hs
  rw [find?_model]
  cases hfind : (m.inputs.filter (·.symbolic)).find? (·.name == i.name) with
  | none => exact absurd (beq_self_eq_true i.name) (List.find?_eq_none.mp hfind i hi)
  | some j => exact ⟨_, rfl, rfl⟩

end InputMap

/-! ### Maps from lists -/

namespace InputMap

theorem find?_set (m : InputMap) (i : Input) (name : String) :
    (m.set i).find? name = if i.name = name then some i else m.find? name := by
  unfold set find?
  dsimp only
  induction m.inputs with
  | nil =>
      rw [replace, List.find?_cons]
      split_ifs with h
      · rw [h, beq_self_eq_true]
      · rw [beq_eq_false_iff_ne.mpr h]
  | cons j js ih =>
      rw [replace]
      by_cases hj : j.name = i.name
      · rw [if_pos hj, List.find?_cons, List.find?_cons, hj]
        split_ifs with h
        · rw [h, beq_self_eq_true]
        · rw [beq_eq_false_iff_ne.mpr h]
      · rw [if_neg hj, List.find?_cons, List.find?_cons, ih]
        split_ifs with h
        · rw [beq_eq_false_iff_ne.mpr (h ▸ hj)]
        · rfl

theorem find?_foldl_set_ne_none (is : List Input) (name : String) :
    ∀ m : InputMap, (m.find? name ≠ none ∨ name ∈ is.map (·.name)) → (is.foldl set m).find? name ≠ none := by
  induction is with
  | nil => exact fun m h => h.resolve_right List.not_mem_nil
  | cons i is ih =>
      intro m h
      refine ih (m.set i) ?_
      rw [find?_set]
      rw [List.map_cons, List.mem_cons] at h
      by_cases hi : i.name = name
      · rw [if_pos hi]
        exact Or.inl nofun
      · rw [if_neg hi]
        exact h.imp_right fun h => h.resolve_left (Ne.symm hi)

theorem find?_ofList_ne_none {is : List Input} {name : String} (h : name ∈ is.map (·.name)) :
    (ofList is).find? name ≠ none :=
  find?_foldl_set_ne_none is name {} (Or.inr h)

/-- All inputs are symbolic and have different names, as in a map that assignments are read as. -/
structure Plain (m : InputMap) : Prop where
  symbolic : ∀ i ∈ m.inputs, i.symbolic = true
  distinct : m.names.Nodup

theorem replace_of_not_mem {i : Input} {js : List Input} (h : i.name ∉ js.map (·.name)) :
    replace i js = js ++ [i] := by
  induction js with
  | nil => rfl
  | cons j js ih =>
      rw [List.map_cons, List.mem_cons, not_or] at h
      rw [replace, if_neg (Ne.symm h.1), ih h.2, List.cons_append]

theorem mem_of_mem_replace {i j : Input} {js : List Input} (h : j ∈ replace i js) : j = i ∨ j ∈ js := by
  induction js with
  | nil => exact Or.inl (List.mem_singleton.mp h)
  | cons k js ih =>
      rw [replace] at h
      split_ifs at h
      · exact (List.mem_cons.mp h).imp_right (List.mem_cons_of_mem _)
      · rcases List.mem_cons.mp h with rfl | h
        · exact Or.inr List.mem_cons_self
        · exact (ih h).imp_right (List.mem_cons_of_mem _)

theorem names_replace_of_mem {i : Input} {js : List Input} (h : i.name ∈ js.map (·.name)) :
    (replace i js).map (·.name) = js.map (·.name) := by
  induction js with
  | nil => cases h
  | cons j js ih =>
      rw [replace]
      split_ifs with hj
      · rw [List.map_cons, List.map_cons, hj]
      · rw [List.map_cons, List.map_cons, ih ((List.mem_cons.mp h).resolve_left (Ne.symm hj))]

theorem names_set (m : InputMap) (i : Input) :
    (m.set i).names = if i.name ∈ m.names then m.names else m.names ++ [i.name] := by
  unfold names set
  split_ifs with hmem
  · exact names_replace_of_mem hmem
  · rw [replace_of_not_mem hmem, List.map_append]
    rfl

theorem nodup_set {m : InputMap} (h : m.names.Nodup) (i : Input) : (m.set i).names.Nodup := by
  rw [names_set]
  split_ifs with hmem
  · exact h
  · exact List.nodup_append_comm.mp (List.nodup_cons.mpr ⟨hmem, h⟩)

theorem Plain.set {m : InputMap} (h : m.Plain) {i : Input} (hi : i.symbolic = true) : (m.set i).Plain := by
  refine ⟨fun j hj => ?_, nodup_set h.distinct i⟩
  rcases mem_of_mem_replace hj with rfl | hj
  · exact hi
  · exact h.symbolic j hj

/-- Assignments are read as a plain map, whatever their names. -/
theorem plain_inputMap (as : Assignments) : as.inputMap.Plain := by
  have hfold : ∀ (is : List Input) (m : InputMap), (∀ i ∈ is, i.symbolic = true) → m.Plain →
      (is.foldl InputMap.set m).Plain := by
    intro is
    induction is with
    | nil => exact fun m _ hm => hm
    | cons i is ih =>
        intro m his hm
        rw [List.forall_mem_cons] at his
        exact ih _ his.2 (hm.set his.1)
  refine hfold _ _ (fun i hi => ?_) ⟨nofun, List.nodup_nil⟩
  obtain ⟨a, -, rfl⟩ := List.mem_map.mp hi
  rfl

theorem foldl_set_of_nodup (is : List Input) :
    ∀ m : InputMap, (m.names ++ is.map (·.name)).Nodup → (is.foldl set m).inputs = m.inputs ++ is := by
  induction is with
  | nil => exact fun m _ => (List.append_nil _).symm
  | cons i is ih =>
      intro m h
      have hi : i.name ∉ m.inputs.map (·.name) := fun hmem =>
        (List.nodup_append.mp h).2.2 _ hmem _ List.mem_cons_self rfl
      have hset : (m.set i).inputs = m.inputs ++ [i] := replace_of_not_mem hi
      rw [List.foldl_cons, ih (m.set i), hset, List.append_assoc]
      · rfl
      · rw [names, hset, List.map_append, List.append_assoc]
        exact h

/-- Listing a map and reading the list makes all inputs symbolic. -/
theorem inputMap_assignments {m : InputMap} (h : m.names.Nodup) :
    m.assignments.inputMap = ⟨m.inputs.map fun i => { i with symbolic := true }⟩ := by
  have hinputs : m.assignments.map (fun a => (⟨a.name, a.value, true⟩ : Input)) =
      m.inputs.map fun i => { i with symbolic := true } := List.map_map
  unfold Assignments.inputMap ofList
  rw [hinputs]
  refine congrArg InputMap.mk ((foldl_set_of_nodup _ {} ?_).trans (List.nil_append _))
  rw [List.map_map]
  exact h

/-- Listing a plain map and reading the list gives the map back. -/
theorem Plain.inputMap_assignments {m : InputMap} (h : m.Plain) : m.assignments.inputMap = m := by
  rw [InputMap.inputMap_assignments h.distinct]
  refine congrArg InputMap.mk ((List.map_congr_left fun i hi => ?_).trans (List.map_id _))
  rw [← h.symbolic i hi]
  rfl

end InputMap

/-! ### Inputs of one shape -/

/-- What an input is beside the value of a symbolic one. -/
def Input.shape (i : Input) : String × Option Int64 := (i.name, if i.symbolic then none else some i.value)

theorem Input.shape_eq_iff {i j : Input} :
    i.shape = j.shape ↔ i.name = j.name ∧ i.symbolic = j.symbolic ∧ (i.symbolic = false → i.value = j.value) := by
  unfold shape
  cases i.symbolic <;> cases j.symbolic <;> simp

/-- The input with the model's value, if it is symbolic and the model binds it. -/
def Input.updated (model : Model) (i : Input) : Input :=
  if i.symbolic then
    match model.find? i.name with
    | some w => { i with value := w.toInt64 }
    | none => i
  else i

theorem Input.name_updated (model : Model) (i : Input) : (i.updated model).name = i.name := by
  unfold updated
  split_ifs
  · cases model.find? i.name <;> rfl
  · rfl

theorem Input.symbolic_updated (model : Model) (i : Input) : (i.updated model).symbolic = i.symbolic := by
  unfold updated
  split_ifs
  · cases model.find? i.name <;> rfl
  · rfl

namespace InputMap

theorem applyModel_eq (model : Model) (m : InputMap) : m.applyModel model = ⟨m.inputs.map (Input.updated model)⟩ := rfl

/-- The names of the inputs, and the values of those that are not symbolic. -/
def shape (m : InputMap) : List (String × Option Int64) := m.inputs.map Input.shape

variable {m m' : InputMap}

theorem names_eq_shape (m : InputMap) : m.names = m.shape.map (·.1) := by
  rw [shape, List.map_map]
  rfl

theorem names_assignments (m : InputMap) : m.assignments.map (·.name) = m.names := List.map_map

theorem symbols_eq_of_shape (h : m.shape = m'.shape) : m.symbols = m'.symbols := by
  have hsymbols : ∀ m : InputMap, m.symbols = (m.shape.filter (·.2.isNone)).map fun s => (s.1, intWidth) := by
    intro m
    unfold symbols shape
    rw [List.filter_map, List.map_map]
    congr 2
    funext i
    cases hi : i.symbolic <;> simp [Input.shape, hi]
  rw [hsymbols, hsymbols, h]

/-- Inputs of one shape give every name an input of one shape. -/
theorem find?_of_shape (h : m.shape = m'.shape) (name : String) :
    m.find? name = none ∧ m'.find? name = none ∨
      ∃ i j, m.find? name = some i ∧ m'.find? name = some j ∧ i.shape = j.shape := by
  have hfind : ∀ m : InputMap, m.shape.find? (·.1 == name) = (m.find? name).map Input.shape :=
    fun m => List.find?_map
  have heq : (m.find? name).map Input.shape = (m'.find? name).map Input.shape := by rw [← hfind, ← hfind, h]
  cases hi : m.find? name with
  | none =>
      rw [hi, Option.map_none, eq_comm, Option.map_eq_none_iff] at heq
      exact Or.inl ⟨rfl, heq⟩
  | some i =>
      rw [hi, Option.map_some, eq_comm, Option.map_eq_some_iff] at heq
      obtain ⟨j, hj, hij⟩ := heq
      exact Or.inr ⟨i, j, rfl, hj, hij.symm⟩

/-- Applying a model changes values of symbolic inputs only. -/
theorem shape_applyModel (m : InputMap) (model : Model) : (m.applyModel model).shape = m.shape := by
  rw [applyModel_eq, shape, shape, List.map_map]
  refine List.map_congr_left fun i _ => Input.shape_eq_iff.mpr ⟨i.name_updated model, i.symbolic_updated model, ?_⟩
  intro hsymbolic
  rw [Input.symbolic_updated] at hsymbolic
  simp [Input.updated, hsymbolic]

theorem names_applyModel (m : InputMap) (model : Model) : (m.applyModel model).names = m.names := by
  rw [names_eq_shape, names_eq_shape, shape_applyModel]

theorem find?_map {f : Input → Input} (hf : ∀ i, (f i).name = i.name) (m : InputMap) (name : String) :
    find? ⟨m.inputs.map f⟩ name = (m.find? name).map f := by
  have hname : (fun i : Input => i.name == name) ∘ f = fun i => i.name == name :=
    funext fun i => by rw [Function.comp_apply, hf]
  change (m.inputs.map f).find? (·.name == name) = _
  rw [List.find?_map, hname]
  rfl

/-- Applying a model gives the symbolic inputs that it binds their values, and keeps all others. -/
theorem find?_applyModel {m : InputMap} {name : String} {input : Input} (h : m.find? name = some input)
    (model : Model) :
    (input.symbolic = false ∨ model.find? name = none → (m.applyModel model).find? name = some input) ∧
      ∀ w, input.symbolic = true → model.find? name = some w →
        (m.applyModel model).find? name = some { input with value := w.toInt64 } := by
  have hinput : input.name = name := name_of_find? h
  rw [applyModel_eq, find?_map (Input.name_updated model), h, Option.map_some]
  constructor
  · rintro (hfixed | hnone)
    · simp [Input.updated, hfixed]
    · simp [Input.updated, hinput, hnone]
  · intro w hsymbolic hw
    simp [Input.updated, hinput, hsymbolic, hw]

theorem Plain.of_shape (h : m.Plain) (hshape : m.shape = m'.shape) : m'.Plain := by
  refine ⟨fun i hi => ?_, ?_⟩
  · have hmem : i.shape ∈ m.shape := hshape ▸ List.mem_map_of_mem hi
    obtain ⟨j, hj, hji⟩ := List.mem_map.mp hmem
    rw [← (Input.shape_eq_iff.mp hji).2.1]
    exact h.symbolic j hj
  · rw [names_eq_shape, ← hshape, ← names_eq_shape]
    exact h.distinct

theorem Plain.applyModel (h : m.Plain) (model : Model) : (m.applyModel model).Plain :=
  h.of_shape (shape_applyModel m model).symm

/-- A symbolic input that the model binds has the model's value. -/
theorem value_of_mem_applyModel {model : Model} {i : Input} {w : Word} (hi : i ∈ (m.applyModel model).inputs)
    (hsym : i.symbolic = true) (hw : model.find? i.name = some w) : i.value = w.toInt64 := by
  obtain ⟨j, -, rfl⟩ := List.mem_map.mp hi
  by_cases hj : j.symbolic = true
  · rw [if_pos hj] at hw ⊢
    cases hfind : model.find? j.name with
    | none =>
        rw [hfind] at hw
        exact absurd (hfind.symm.trans hw) nofun
    | some w' =>
        rw [hfind] at hw
        exact congrArg Word.toInt64 (Option.some.inj (hfind.symm.trans hw))
  · rw [if_neg hj] at hsym
    exact absurd hsym hj

/-- A symbol that the model binds has the model's value. -/
theorem valuation_applyModel {model : Model} {name : String} {w : Word} (hmem : (name, intWidth) ∈ m.symbols)
    (hw : model.find? name = some w) : (m.applyModel model).valuation name intWidth = w.toInt64.toBitVec := by
  rw [symbols_eq_of_shape (shape_applyModel m model).symm] at hmem
  obtain ⟨i, hi, hname⟩ := List.mem_map.mp hmem
  rw [valuation, Valuation.override, find?_model]
  cases hfind : ((m.applyModel model).inputs.filter (·.symbolic)).find? (·.name == name) with
  | none =>
      cases hname
      exact absurd (beq_self_eq_true i.name) (List.find?_eq_none.mp hfind i hi)
  | some j =>
      obtain ⟨hj, hsym⟩ := List.mem_filter.mp (List.mem_of_find?_eq_some hfind)
      have hjname := List.find?_some hfind
      rw [beq_iff_eq] at hjname
      rw [Option.map_some, value_of_mem_applyModel hj hsym (hjname ▸ hw)]
      have hwidth : (Word.ofInt64 w.toInt64).width = intWidth := rfl
      dsimp only
      rw [if_pos hwidth]
      exact Word.bits_ofInt64 _

/-- A symbol that the model leaves free keeps its value. -/
theorem valuation_applyModel_of_none {model : Model} {name : String} (h : model.find? name = none) (w : Nat) :
    (m.applyModel model).valuation name w = m.valuation name w := by
  have hfind : (m.applyModel model).model.find? name = m.model.find? name := by
    rw [find?_model, find?_model, applyModel]
    induction m.inputs with
    | nil => rfl
    | cons i is ih =>
        rw [List.map_cons, List.filter_cons, List.filter_cons]
        by_cases hsym : i.symbolic = true
        · by_cases hname : i.name = name
          · simp [hsym, hname, h]
          · cases hbound : model.find? i.name with
            | none => simpa [hsym, hname, hbound] using ih
            | some c => simpa [hsym, hname, hbound] using ih
        · simpa [hsym] using ih
  rw [valuation, valuation, Valuation.override, Valuation.override, hfind]

/-- On the symbolic inputs, applying a model of fitting words overrides their values. -/
theorem valuation_applyModel_eq {model : Model} (hfits : model.Fits m.symbols) {x : String × Nat}
    (hx : x ∈ m.symbols) : (m.applyModel model).valuation x.1 x.2 = m.valuation.override model x.1 x.2 := by
  obtain ⟨i, hi, rfl⟩ := List.mem_map.mp hx
  cases hfind : model.find? i.name with
  | none => rw [valuation_applyModel_of_none hfind, Valuation.override, hfind]
  | some c =>
      have hwidth : c.width = intWidth := hfits _ hx c hfind
      rw [valuation_applyModel hx hfind, Valuation.override, hfind]
      dsimp only
      rw [if_pos hwidth, Word.toInt64, Int64.toBitVec_ofInt, ← Word.toInt_bits hwidth]
      exact BitVec.ofInt_toInt

end InputMap

end Pathwise
