import Pathwise.CommandLine

/-!
# A host in memory

Files, directories and output that exist only for a few runs of the command line. A path leads from
the working directory through directories that have to exist, one part at a time. What lies around
the working directory is there but empty.
-/

namespace Pathwise

/-- Where a path leads: the parts below the working directory. A place outside of it starts with
`..` or with the root, `/`. -/
abbrev Place := List String

/-- What is found at a place. -/
inductive Found where
  | file (text : String)
  | directory
  | nothing
deriving DecidableEq

structure Disk where
  files : List (Place × String) := []
  /-- Directories that were made. Those that hold a file exist anyway. -/
  directories : List Place := []
  env : List (String × String) := []
  output : String := ""
  /-- How many stamps were given out. -/
  stamps : Nat := 0
deriving Inhabited

namespace Disk

/-- A disk with files at these paths. -/
def ofFiles (files : List (String × String)) : Disk :=
  { files := files.map fun (path, text) => (Text.pathParts path, text) }

/-- The files in the working directory and below, by their paths. -/
def toFiles (d : Disk) : List (String × String) :=
  (d.files.filter fun (place, _) => place.head?.all fun p => p ≠ ".." && p ≠ "/").map
    fun (place, text) => ("/".intercalate place, text)

/-- The longest name of a file, and the longest path, in bytes. -/
def nameLimit : Nat := 255

def pathLimit : Nat := 4095

def isDirectory (d : Disk) (place : Place) : Bool :=
  place.all (· = "..") || place = ["/"] || d.directories.contains place
    || d.files.any fun (p, _) => place.isPrefixOf p && place ≠ p

def find (d : Disk) (place : Place) : Found :=
  match d.files.lookup place with
  | some text => .file text
  | none => if d.isDirectory place then .directory else .nothing

/-- The directory around a place. -/
def around (place : Place) : Place :=
  if place = ["/"] then place
  else if place.all (· = "..") then ".." :: place
  else place.dropLast

/-- The place of a name in a directory. -/
def step (place : Place) (name : String) : Except PathError Place :=
  if name = ".." then .ok (around place)
  else if nameLimit < name.utf8ByteSize then .error .nameTooLong
  else .ok (place ++ [name])

/-- Follows names that have to lead to directories. -/
def follow (d : Disk) : Place → List String → Except PathError Place
  | place, [] => .ok place
  | place, name :: names => do
    let next ← step place name
    match d.find next with
    | .directory => follow d next names
    | .file _ => throw .notDirectory
    | .nothing => throw .missing

/-- The place of a path, and whether the path can only mean a directory. -/
def locate (d : Disk) (path : String) : Except PathError (Place × Bool) := do
  if path.contains (Char.ofNat 0) then throw .invalid
  if path = "" then throw .missing
  if pathLimit < path.utf8ByteSize then throw .nameTooLong
  let start := if path.startsWith "/" then ["/"] else []
  let parts := Text.pathParts path
  match ((path.splitOn "/").filter (· ≠ "")).getLast? with
  | none | some "." => return (← d.follow start parts, true)
  | some name =>
    let place ← d.follow start parts.dropLast
    return (← step place name, name = ".." || path.endsWith "/")

/-- What is at the end of a path. -/
def lookUp (d : Disk) (path : String) : Except PathError Found := do
  let (place, onlyDirectory) ← d.locate path
  match d.find place with
  | .file text => if onlyDirectory then throw .notDirectory else return .file text
  | .directory => return .directory
  | .nothing => throw .missing

/-- The place for a file that is to be written. -/
def placeFor (d : Disk) (path : String) : Except PathError Place := do
  let (place, onlyDirectory) ← d.locate path
  if onlyDirectory || d.find place = .directory then throw .isDirectory
  return place

def putFile (d : Disk) (place : Place) (text : String) : Disk :=
  { d with files := (place, text) :: d.files.filter (·.1 ≠ place) }

/-- Opens a file of answers, which is made if it is not there. Text is no file of answers. -/
def openAnswers (d : Disk) (path : String) : Except String Disk :=
  match d.placeFor path with
  | .error e => .error (e.message "open" path)
  | .ok place =>
    match d.find place with
    | .file "" => .ok d
    | .file _ => .error "invalid database"
    | _ => .ok (d.putFile place "")

/-- Makes a directory and those around it, until a file is in the way. -/
def makeDirectories (d : Disk) : Place → List String → Except PathError Disk
  | _, [] => .ok d
  | place, name :: names => do
    let next ← step place name
    match d.find next with
    | .file _ => throw .notDirectory
    | .directory => makeDirectories d next names
    | .nothing => makeDirectories { d with directories := next :: d.directories } next names

/-- The names directly in a directory, with the texts of those that are files. -/
def list (d : Disk) (place : Place) : List (String × Option String) :=
  let below := d.files.filterMap fun (p, text) =>
    if place.isPrefixOf p then
      match p.drop place.length with
      | [name] => some (name, some text)
      | name :: _ => some (name, none)
      | [] => none
    else none
  let made := d.directories.filterMap fun p =>
    match p.getLast? with
    | some name => if p.dropLast = place then some (name, none) else none
    | none => none
  let once (seen : List (String × Option String)) (e : String × Option String) :
      List (String × Option String) :=
    if (seen.map (·.1)).contains e.1 then seen else seen ++ [e]
  (below ++ made).foldl once []

/-- The host, with the stamps that it is to give out. -/
def host (stamp : Nat → Stamp) : Host (StateM Disk) where
  stat path := do return ((← get).lookUp path).map fun _ => ()
  read path := do
    match (← get).lookUp path with
    | .ok (.file text) => return .ok text
    | .ok _ => return .error (PathError.isDirectory.message "read" path)
    | .error e => return .error (e.message "open" path)
  write path text := do
    let d ← get
    match d.placeFor path with
    | .ok place =>
      set (d.putFile place text)
      return .ok ()
    | .error e => return .error (e.message "open" path)
  openAnswers path := do
    match (← get).openAnswers path with
    | .ok d =>
      set d
      return .ok ()
    | .error e => return .error e
  makeDirectory path := do
    let d ← get
    let start := if path.startsWith "/" then ["/"] else []
    match d.makeDirectories start (Text.pathParts path) with
    | .ok d =>
      set d
      return .ok ()
    | .error e => return .error (e.message "mkdir" path)
  list path := do
    let d ← get
    match d.locate path with
    | .ok (place, _) => return d.list place
    | .error _ => return []
  env name := do return ((← get).env.lookup name).getD ""
  stamp := modifyGet fun d => (stamp d.stamps, { d with stamps := d.stamps + 1 })
  print text := modify fun d => { d with output := d.output ++ text }

end Disk
end Pathwise
