import Pathwise.Grading
import Pathwise.Text.Bytes
import Pathwise.Text.Path
import Pathwise.Web.Rejection

/-!
# The service over the web

Requests name a method and a path, and some have a body. Replies have a status and a body, which is a
document or plain text. A path that only has a slash too many is sent on to the right one.
-/

namespace Pathwise

namespace Web

structure Request where
  method : String
  /-- The path as it was sent, escapes and query included. -/
  path : String
  body : Option String := none

inductive Body where
  | json (j : Json)
  | text (s : String)

structure Reply where
  status : Int
  body : Body

/-! ### Paths -/

/-- The bytes that a path stands for: a percent sign and two hexadecimal digits stand for one. -/
def unescapedBytes : List UInt8 → List UInt8
  | 37 :: a :: b :: bs =>
    match Numeral.digits? 16 0 [Char.ofNat a.toNat, Char.ofNat b.toNat] with
    | some n => n.toUInt8 :: unescapedBytes bs
    | none => 37 :: unescapedBytes (a :: b :: bs)
  | b :: bs => b :: unescapedBytes bs
  | [] => []
termination_by bs => bs.length

/-- The bytes that may stand in a path as they are. -/
def isPlainByte (b : UInt8) : Bool :=
  let c := Char.ofNat b.toNat
  b < 0x80 && (c.isAlphanum || "-_.~$&+,/:;=@".contains c)

/-- The path that stands for some bytes. -/
def escapedBytes (bytes : List UInt8) : String :=
  String.join (bytes.map fun b =>
    if isPlainByte b then (Char.ofNat b.toNat).toString
    else "%" ++ (Text.hexPadded 2 b.toNat).toUpper)

/-- The parts between slashes. -/
def splitSlashes (bytes : List UInt8) : List (List UInt8) :=
  bytes.foldr (fun b parts =>
    match parts with
    | [] => [[b]]
    | p :: ps => if b = 47 then [] :: p :: ps else (b :: p) :: ps) [[]]

/-- Path and query. The query starts at the first question mark. -/
def splitQuery (path : String) : String × String :=
  let cs := path.toList
  (String.ofList (cs.takeWhile (· ≠ '?')), String.ofList (cs.dropWhile (· ≠ '?')))

/-- What a path leads to. -/
inductive Route where
  | health
  | programs
  | counterexamples
  | explore
  | check
  | metrics

/-- The route of a method and the segments of a path. The metrics may not be on show. -/
def route? (showMetrics : Bool) (method : String) (segments : List String) : Option Route :=
  match method, segments with
  | "GET", ["health"] => some .health
  | "GET", ["v1", "programs"] => some .programs
  | "GET", ["v1", "programs", _, "counterexamples"] => some .counterexamples
  | "GET", ["metrics"] => if showMetrics then some .metrics else none
  | "POST", ["v1", "explore"] => some .explore
  | "POST", ["v1", "check"] => some .check
  | _, _ => none

/-- Whether a path with a slash behind these segments is sent on to the one without. That is so for
every route, and for a program without anything else. -/
def redirects (showMetrics : Bool) (method : String) (segments : List String) : Bool :=
  (route? showMetrics method segments).isSome ||
    match method, segments with
    | "GET", ["v1", "programs", _] => true
    | _, _ => false

/-! ### Replies -/

def reject (r : Rejection) : Reply := ⟨r.status, .json (.obj [("error", r.message)])⟩

def notFound : Reply := ⟨404, .text "404 page not found"⟩

/-- Text inside a page. -/
def markup (s : String) : String :=
  String.join (s.toList.map fun c =>
    match c with
    | '&' => "&amp;"
    | '<' => "&lt;"
    | '>' => "&gt;"
    | '"' => "&#34;"
    | c => if c.toNat = 39 then "&#39;" else c.toString)

/-- Where a path without its last slash leads: the shortest path to the same place. -/
def target (bytes : List UInt8) : String :=
  let path := escapedBytes bytes
  let clean := Text.cleanPath path
  if path.endsWith "/" && !clean.endsWith "/" then clean ++ "/" else clean

/-- Sends the client on. Only a request that fetches something gets a link to follow. -/
def redirect (method target : String) : Reply :=
  if method = "GET" then
    ⟨301, .text s!"<a href=\"{markup target}\">Moved Permanently</a>.\n\n"⟩
  else ⟨307, .text ""⟩

/-- The first value of a body, read by its schema. -/
def readBody? (s : Schema) (body : Option String) : Option Json := do
  s.readNew (← Json.parseFirst? (← body))

variable {σ τ : Type}

/-- What a handled request is answered with. -/
def finish {α : Type} (toJson : α → Json) (r : Except Failure α) : Reply :=
  match r with
  | .ok a => ⟨200, .json (toJson a)⟩
  | .error f => reject (.ofFailure f)

def explore (g : Grader σ τ) (stamp : Stamp) (body : Option String) :
    StateM (GradingState τ) Reply := do
  match (readBody? ExploreRequest.schema body).map ExploreRequest.ofJson with
  | none => return reject { status := 400, message := "invalid request body" }
  | some req =>
    if req.program = "" then return reject { status := 400, message := "missing program" }
    else return finish ExploreResponse.toJson (← (g.explore req stamp).run)

def check (g : Grader σ τ) (stamp : Stamp) (body : Option String) :
    StateM (GradingState τ) Reply := do
  match (readBody? CheckRequest.schema body).map CheckRequest.ofJson with
  | none => return reject { status := 400, message := "invalid request body" }
  | some req =>
    if req.program = "" || req.variant = "" then
      return reject { status := 400, message := "missing program or variant" }
    else return finish CheckResponse.toJson (← (g.check req stamp).run)

def counterexamples (program : List Text.Glyph) (st : GradingState τ) : Reply :=
  match Catalogue.lookup (Text.shownText program) with
  | .error e => reject (.ofFailure (e.failureAs (Text.quotedGlyphs program)))
  | .ok p => ⟨200, .json (.arr ((Grader.counterexamples st p.name).map
      (.ofOption Assignments.toJson)))⟩

/-- Handles one request. -/
def handle (g : Grader σ τ) (showMetrics : Bool) (stamp : Stamp) (req : Request) :
    StateM (GradingState τ) Reply := do
  let (path, query) := splitQuery req.path
  let bytes := unescapedBytes path.toUTF8.toList
  let parts := ((splitSlashes bytes).drop 1).map Text.glyphs
  let segments := parts.map Text.shownText
  match route? showMetrics req.method segments with
  | some .health => return ⟨200, .text ""⟩
  | some .programs => return ⟨200, .json Catalogue.toJson⟩
  | some .counterexamples => return counterexamples (parts.getD 2 []) (← get)
  | some .explore => explore g stamp req.body
  | some .check => check g stamp req.body
  | some .metrics => return ⟨200, .text (← get).metrics.page⟩
  | none =>
    if segments.getLast? = some "" && redirects showMetrics req.method segments.dropLast then
      return redirect req.method (target bytes.dropLast ++ query)
    else return notFound

end Web
end Pathwise
