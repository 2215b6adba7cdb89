import Pathwise.Model

/-!
# Inputs

An input gives a parameter its value and says whether branches on it are to be tracked. An
`InputMap` holds the inputs of one run, one for each name, in the order in which the names first
appeared. A list of `Assignment`s is a test case as it is stored and shown.
-/

namespace Pathwise

/-- The value of one parameter. A symbolic one is tracked as the symbol of that name. -/
structure Input where
  name : String
  value : Int64
  symbolic : Bool
deriving DecidableEq, Inhabited

/-- One name and its value in a test case. -/
structure Assignment where
  name : String
  value : Int64
deriving DecidableEq, Inhabited

/-- A test case. -/
abbrev Assignments := List Assignment

/-- The inputs of one run. -/
structure InputMap where
  inputs : List Input := []
deriving DecidableEq, Inhabited

namespace InputMap

/-- The list with an input put in place of the one of its name, or at the end. -/
def replace (i : Input) : List Input → List Input
  | [] => [i]
  | j :: js => if j.name = i.name then i :: js else j :: replace i js

/-- The map with one input replaced or added. -/
def set (m : InputMap) (i : Input) : InputMap := ⟨replace i m.inputs⟩

/-- A map from inputs in order. Of several with one name the last counts, in the place of the
first. -/
def ofList (is : List Input) : InputMap := is.foldl set {}

def find? (m : InputMap) (name : String) : Option Input := m.inputs.find? (·.name == name)

def names (m : InputMap) : List String := m.inputs.map (·.name)

def assignments (m : InputMap) : Assignments := m.inputs.map fun i => ⟨i.name, i.value⟩

/-- Takes the model's words for the symbolic inputs that it binds; everything else stays. -/
def applyModel (m : Model) (base : InputMap) : InputMap :=
  ⟨base.inputs.map fun i =>
    if i.symbolic then
      match m.find? i.name with
      | some w => { i with value := w.toInt64 }
      | none => i
    else i⟩

end InputMap

namespace Assignments

def text (as : Assignments) : String :=
  ", ".intercalate (as.map fun a => s!"{a.name}={a.value.toInt}")

/-- Every assignment as a symbolic input. -/
def inputMap (as : Assignments) : InputMap :=
  .ofList (as.map fun a => ⟨a.name, a.value, true⟩)

/-- The values by name, where the last assignment of a name counts. -/
def value? (as : Assignments) (name : String) : Option Int64 :=
  (as.reverse.find? (·.name == name)).map (·.value)

end Assignments

def InputMap.text (m : InputMap) : String := m.assignments.text

end Pathwise
