import Std.Time.DateTime.Timestamp
import Pathwise.CommandLine

/-!
# The program

Runs the command line in the surroundings of the process: its files, its environment, its output.
-/

namespace Pathwise

/-- Sixteen random bytes, spelt as an identifier of version 4. -/
def randomId : IO String := do
  let bytes := (← IO.getRandomBytes 16).toList.map UInt8.toNat
  let bytes := bytes.mapIdx fun i b =>
    if i = 6 then 0x40 + b % 16 else if i = 8 then 0x80 + b % 64 else b
  let hex := bytes.map (Text.hexPadded 2)
  let part (start count : Nat) : String := String.join ((hex.drop start).take count)
  return "-".intercalate [part 0 4, part 4 2, part 6 2, part 8 2, part 10 6]

/-- The beginning of 1970, from which clocks count. -/
def clockStart : Int := Moment.daysBeforeYear 1970 * 86400 * 1000000000

def currentStamp : IO Stamp := do
  let now ← Std.Time.Timestamp.now
  return { id := ← randomId, created := ⟨clockStart + now.toNanosecondsSinceUnixEpoch.toInt⟩ }

/-- Why an action on a path failed. -/
def pathError : IO.Error → PathError
  | .noFileOrDirectory .. => .missing
  | .inappropriateType .. => .notDirectory
  | .invalidArgument .. => .invalid
  | _ => .isDirectory

/-- The text of a file, if it can be read. -/
def readText? (path : String) : IO (Option String) := do
  try return some (← IO.FS.readFile path)
  catch _ => return none

/-- The names of what is directly in a directory. -/
def namesIn (path : String) : IO (List String) := do
  try
    let entries ← ((← IO.currentDir) / path).readDir
    return entries.toList.map (·.fileName)
  catch _ => return []

/-- The surroundings of this process. -/
def processHost : Host IO where
  stat path := do
    try
      let _ ← IO.FS.readFile path
      return .ok ()
    catch e =>
      match pathError e with
      | .isDirectory => return .ok ()
      | e => return .error e
  read path := do
    try return .ok (← IO.FS.readFile path)
    catch e =>
      match pathError e with
      | .isDirectory => return .error (PathError.isDirectory.message "read" path)
      | e => return .error (e.message "open" path)
  write path text := do
    try
      IO.FS.writeFile path text
      return .ok ()
    catch e => return .error ((pathError e).message "open" path)
  openAnswers path := do
    try
      if (← readText? path).any (· ≠ "") then return .error "invalid database"
      else
        IO.FS.writeFile path ""
        return .ok ()
    catch e => return .error ((pathError e).message "open" path)
  makeDirectory path := do
    try
      IO.FS.createDirAll path
      return .ok ()
    catch _ => return .error (PathError.notDirectory.message "mkdir" path)
  list path := do
    (← namesIn path).mapM fun name => do return (name, ← readText? (path ++ "/" ++ name))
  env name := do return (← IO.getEnv name).getD ""
  stamp := currentStamp
  print text := do (← IO.getStdout).putStr text

end Pathwise

/-- Runs the command line and ends the process with its exit code. -/
def main (args : List String) : IO UInt32 := do
  match ← (Pathwise.Command.runLine Pathwise.processHost args).run with
  | .ok _ => return 0
  | .error e =>
    let (code, shown) := e.outcome
    if let some message := shown then
      (← IO.getStderr).putStrLn message
    return code.toNat.toUInt32
