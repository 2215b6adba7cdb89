import Pathwise.Invocation
import Pathwise.Text.Case
import Pathwise.Text.Distance
import Pathwise.Text.Quoted

/-!
# Programs

A program has a reference implementation and variants to check against it, all of them scripts over
the same parameters.
-/

namespace Pathwise

structure Variant where
  name : String
  description : String
  script : Script

structure Program where
  name : String
  description : String
  params : List String
  reference : Script
  variants : List Variant

inductive CatalogueError where
  | unknownProgram (name : String) (suggestions : List String)
  | unknownVariant (name program : String)
deriving DecidableEq, Repr

/-- The failure about a name that is shown in some quoted form. -/
def CatalogueError.failureAs (shown : String) : CatalogueError → Failure
  | .unknownProgram _ [] => ⟨.unknownProgram, s!"unknown program {shown}"⟩
  | .unknownProgram _ suggestions => ⟨.unknownProgram,
    s!"unknown program {shown}, did you mean " ++ " or ".intercalate suggestions ++ "?"⟩
  | .unknownVariant _ program => ⟨.unknownVariant, s!"unknown variant {shown} for {program}"⟩

def CatalogueError.name : CatalogueError → String
  | .unknownProgram name _ => name
  | .unknownVariant name _ => name

def CatalogueError.failure (e : CatalogueError) : Failure := e.failureAs (Text.quoted e.name)

namespace Program

def variantNames (p : Program) : List String := p.variants.map (·.name)

def variant (p : Program) (name : String) : Except CatalogueError Variant :=
  match p.variants.find? (·.name == name) with
  | some v => .ok v
  | none => .error (.unknownVariant name p.name)

def referenceTarget (p : Program) : Target :=
  { name := p.name, params := p.params, body := some p.reference.run }

def variantTarget (p : Program) (v : Variant) : Target :=
  { name := p.name ++ "/" ++ v.name, params := p.params, body := some v.script.run }

end Program

/-- The candidates at most two edits away from a name, the closest first. Case does not count. -/
def suggest (name : String) (candidates : List String) : List String :=
  let scored := candidates.map fun c => (c, Text.editDistance (Text.lower name) (Text.lower c))
  ((scored.filter (·.2 ≤ 2)).mergeSort (fun a b => a.2 ≤ b.2)).map (·.1)

end Pathwise
