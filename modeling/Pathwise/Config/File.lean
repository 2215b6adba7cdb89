import Pathwise.Config
import Pathwise.Json.Parser
import Pathwise.Yaml.Parser
import Pathwise.Yaml.Schema

/-!
# Configuration files

Settings are kept as YAML in files that end in `.yaml` or `.yml`, in any case, and as JSON in all
others.
-/

namespace Pathwise.Config

/-- What follows the last dot of the last part of a path, with the dot. -/
def extension (path : String) : String :=
  let name := (path.splitOn "/").getLast?.getD ""
  match name.splitOn "." with
  | [] | [_] => ""
  | parts => "." ++ parts.getLast?.getD ""

def isYaml (path : String) : Bool := [".yaml", ".yml"].contains (Text.lower (extension path))

/-- The settings in the text of a file. -/
def ofText? (path text : String) : Option Config :=
  if isYaml path then do
    return ofJson (← schema.readYaml (toJson {}) (← Yaml.parse? text))
  else (Json.parse? text).bind read?

/-- The text of a file with these settings. -/
def fileText (c : Config) (path : String) : String :=
  if isYaml path then schema.yamlDocument c.toJson else c.document.pretty "\t"

end Pathwise.Config
