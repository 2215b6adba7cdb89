import Pathwise.QueryCache
import Pathwise.Text.Case

/-!
# Stores

The stores that a cache can have behind it: none, a table in memory that counts its uses and can be
made to fail, a file that collects writes before it takes them over, and a remote server, which is
never reached here. Tables and files are shared by name, so several caches can use one.
-/

namespace Pathwise

/-- Answers by key. -/
abbrev AnswerTable := List (String × CachedAnswer)

def AnswerTable.find? (t : AnswerTable) (key : String) : Option CachedAnswer :=
  (List.find? (·.1 == key) t).map (·.2)

def AnswerTable.set (t : AnswerTable) (key : String) (a : CachedAnswer) : AnswerTable :=
  (key, a) :: List.filter (·.1 != key) t

/-- A shared table that counts its uses. -/
structure CountingTable where
  entries : AnswerTable := []
  gets : Nat := 0
  puts : Nat := 0
  closed : Nat := 0
  failGet : Bool := false
  failPut : Bool := false
deriving Inhabited

/-- The shared tables and files, by name. -/
structure Shelf where
  tables : List (String × CountingTable) := []
  files : List (String × AnswerTable) := []
deriving Inhabited

namespace Shelf

def table (s : Shelf) (name : String) : CountingTable :=
  ((s.tables.find? (·.1 == name)).map (·.2)).getD {}

def setTable (s : Shelf) (name : String) (t : CountingTable) : Shelf :=
  { s with tables := (name, t) :: s.tables.filter (·.1 != name) }

def file (s : Shelf) (name : String) : AnswerTable :=
  ((s.files.find? (·.1 == name)).map (·.2)).getD []

def setFile (s : Shelf) (name : String) (t : AnswerTable) : Shelf :=
  { s with files := (name, t) :: s.files.filter (·.1 != name) }

end Shelf

/-- A store as its user holds it. A file has writes that it has not taken over yet. -/
inductive StoreHandle where
  | none
  | table (name : String)
  | file (name : String) (pending : AnswerTable) (isOpen : Bool)
  | remote (isOpen : Bool)

namespace StoreHandle

/-- So many writes are collected before a file takes them over. -/
def flushThreshold : Nat := 25

def get (key : String) (h : StoreHandle) (s : Shelf) : Except StoreError CachedAnswer × Shelf :=
  match h with
  | .none => (.error .notFound, s)
  | .table name =>
    let t := s.table name
    let s := s.setTable name { t with gets := t.gets + 1 }
    if t.failGet then (.error (.failed "store is failing"), s)
    else
      match t.entries.find? key with
      | some a => (.ok a, s)
      | .none => (.error .notFound, s)
  | .file name pending isOpen =>
    match pending.find? key with
    | some a => (.ok a, s)
    | .none =>
      if !isOpen then (.error (.failed "could not get answer: database not open"), s)
      else
        match (s.file name).find? key with
        | some a => (.ok a, s)
        | .none => (.error .notFound, s)
  | .remote _ => (.error (.failed "failed to get from the server"), s)

/-- Takes the pending writes over into the file. -/
def flush (name : String) (pending : AnswerTable) (s : Shelf) : Shelf :=
  s.setFile name (pending.foldl (fun t (k, a) => AnswerTable.set t k a) (s.file name))

def put (key : String) (a : CachedAnswer) (h : StoreHandle) (s : Shelf) :
    Except StoreError Unit × StoreHandle × Shelf :=
  match h with
  | .none => (.ok (), h, s)
  | .table name =>
    let t := s.table name
    let t := { t with puts := t.puts + 1 }
    if t.failPut then (.error (.failed "store is failing"), h, s.setTable name t)
    else (.ok (), h, s.setTable name { t with entries := AnswerTable.set t.entries key a })
  | .file name pending isOpen =>
    let pending := AnswerTable.set pending key a
    if pending.length < flushThreshold then (.ok (), .file name pending isOpen, s)
    else if !isOpen then
      (.error (.failed "database not open"), .file name pending isOpen, s)
    else (.ok (), .file name [] isOpen, flush name pending s)
  | .remote _ => (.error (.failed "failed to save to the server"), h, s)

/-- Closing takes over what is pending. -/
def close (h : StoreHandle) (s : Shelf) : Except StoreError Unit × StoreHandle × Shelf :=
  match h with
  | .none => (.ok (), h, s)
  | .table name =>
    let t := s.table name
    (.ok (), h, s.setTable name { t with closed := t.closed + 1 })
  | .file name pending isOpen =>
    if pending.isEmpty then (.ok (), .file name [] false, s)
    else if isOpen then (.ok (), .file name [] false, flush name pending s)
    else (.error (.failed "database not open"), h, s)
  | .remote true => (.ok (), .remote false, s)
  | .remote false => (.error (.failed "redis: client is closed"), h, s)

/-- These stores as one. -/
def store : Store (StoreHandle × Shelf) where
  get key := fun (h, s) =>
    let (r, s) := h.get key s
    (r, h, s)
  put key a := fun (h, s) => h.put key a s

end StoreHandle

/-- The store named in a configuration: the memory alone needs none. -/
def openStore (backend path : String) : Except String StoreHandle :=
  match Text.lower backend with
  | "" | "memory" => .ok .none
  | "bolt" => .ok (.file path [] true)
  | "redis" => .ok (.remote true)
  | _ => .error s!"querycache: unknown store {Text.quoted backend}"

end Pathwise
