import Routing.Command.Arguments
import Routing.Highlight
import Routing.Query.Arguments
import Routing.Table
import Routing.Value.Json

/-!
# The command

The command reads a route table, builds its router, and does what a request asks for in this order: it lists the
routes, matches a location, and writes a link. Its report holds the lines to print, the complaints and the exit
status. A run that is stopped by a complaint prints no line.
-/

namespace Routing.Command

/-! ### Reports -/

/-- What the command has to complain of. -/
inductive Complaint where
  /-- The command line is refused. -/
  | usage
  /-- There is no file with the route table. -/
  | noTable (path : Text)
  /-- The file holds no route table. -/
  | badTable (cause : TableError)
  /-- The routes of the table cannot be built. -/
  | badRoute (cause : RouteError)
  /-- A location matches no route. -/
  | unmatched (location : Text)
  /-- The request cannot be met. -/
  | failed (cause : RouteError)
  deriving DecidableEq, Repr

/-- The wording of a complaint. -/
def Complaint.message : Complaint → Text
  | usage => "usage".toList
  | noTable path => "Error: Route table not found: ".toList ++ path
  | badTable cause => "Error: ".toList ++ cause.message
  | badRoute cause => "Route table error: ".toList ++ cause.message
  | unmatched location => "No route matches ".toList ++ Text.quoted location
  | failed cause => "Error: ".toList ++ cause.message

/-- The outcome of a run. -/
structure Report where
  lines : List Text := []
  complaints : List Complaint := []
  status : Nat := 0
  /-- Whether the last complaint stopped the run. -/
  stopped : Bool := false
  deriving DecidableEq, Repr

/-- The report of a run that a complaint stops, after those made before. -/
def Report.stop (before : List Complaint) (c : Complaint) : Report :=
  { complaints := before ++ [c], status := if c = .usage then 2 else 1, stopped := true }

/-- Whether a complaint is made for an error. Any other error is one of the command itself. -/
def isReported : RouteError → Bool
  | .badRegex | .countTooLarge | .noSegments | .crossedCapture | .noCapture | .noSplitter _ | .noDigits _
  | .outsideText | .wrongKind _ => false
  | .badPattern _ | .unknownParent _ | .unknownRoute _ _ | .missingParameter _ _ _ | .mismatch _ _ _ | .emptyName
  | .redirectLoop _ | .noCurrent | .badPair _ | .unmatchedOrigin _ => true

/-- The report of a run that an error stops. -/
def stopAt (before : List Complaint) (complain : RouteError → Complaint) (e : RouteError) : Traced Report :=
  if isReported e then pure (.stop before (complain e)) else .fail e

/-! ### Requests -/

/-- A text that is given and not empty. -/
def wanted : Option Text → Option Text
  | some (c :: rest) => some (c :: rest)
  | _ => none

/-- The line of a route in the list of all routes. -/
def listLine (settings : Settings) (r : Route) : Text :=
  let pattern := r.pattern.written
  Text.padRight 24 r.name ++ " /".toList ++
    (if settings.highlightPatterns then Highlight.highlight pattern else pattern)

/-- The lines of all routes. -/
def listing (r : Router) : List Text := r.tree.root.walk.map (listLine r.settings)

/-- The names of some routes as they are printed. -/
def shownNames (routes : List Route) : Text := (Value.list (routes.map fun r => .str r.name)).shown

/-- Parameters as they are printed. -/
def shownParams (params : Mapping Value) : Except RouteError Text :=
  (Value.ofEntries params.entries).json.mapError fun e => .wrongKind (.unordered e.first.kind e.second.kind)

/-- The lines of a transition, given the parameters before it. -/
def describe (settings : Settings) (t : Transition) (before : Mapping Value) : Traced (List Text) := do
  let params ← shownParams t.params
  let left ← t.disabled settings before
  let entered ← t.enabled settings before
  return [
    "route:    ".toList ++ lineageName t.target,
    "params:   ".toList ++ params,
    "disabled: ".toList ++ shownNames left,
    "enabled:  ".toList ++ shownNames entered]

/-- The router at the location that is left. -/
def depart (r : Router) : Option Text → Traced Router
  | none => pure r
  | some origin => do
    match ← r.matchLocation origin with
    | none => .fail (.unmatchedOrigin origin)
    | some t => return r.commit t

/-- The router at the location that is left, and the lines of the transition to a location if it matches. -/
def arrive (r : Router) (origin : Option Text) (location : Text) : Traced (Router × Option (List Text)) := do
  let r ← depart r origin
  match ← r.matchLocation location with
  | none => return (r, none)
  | some t => return (r, some (← describe r.settings t r.currentParams))

/-- The link to a route with the parameters that arguments give. -/
def linkLine (r : Router) (name : Text) (arguments : List Text) : Except RouteError Text := do
  let params ← Query.ofArguments arguments
  r.link (.dotted name) params none {}

/-- The report with the link that a request wants, if it wants one. -/
def addLink (r : Router) (q : Request) (report : Report) : Traced Report :=
  match wanted q.link with
  | none => pure report
  | some name =>
    match linkLine r name q.params with
    | .ok line => pure { report with lines := report.lines ++ [line] }
    | .error e => stopAt report.complaints .failed e

/-- The report on a request to a router. -/
def resolve (r : Router) (q : Request) : Traced Report := do
  let lines := if q.listing then listing r else []
  match wanted q.location with
  | none => addLink r q { lines }
  | some location =>
    match ← (arrive r (wanted q.origin) location).caught with
    | .error e => stopAt [] .failed e
    | .ok (r, some described) => addLink r q { lines := lines ++ described }
    | .ok (r, none) => addLink r q { lines, complaints := [.unmatched location], status := 2 }

/-! ### Runs -/

/-- The pieces of a path that lead on; a dot leads nowhere. -/
def pathPieces (path : Text) : List Text :=
  (Text.splitOn '/' path).filter fun piece => !piece.isEmpty && piece != ['.']

/-- What an absolute path starts with. -/
def pathRoot : Text → Text
  | '/' :: '/' :: '/' :: _ => ['/']
  | '/' :: '/' :: _ => ['/', '/']
  | '/' :: _ => ['/']
  | _ => []

/-- A path in its shortest form; a single dot for the empty one. -/
def normalizePath (path : Text) : Text :=
  let short := pathRoot path ++ Text.join ['/'] (pathPieces path)
  if short.isEmpty then ['.'] else short

/-- The last piece of a path. -/
def fileName (path : Text) : Text := ((pathPieces path).getLast?).getD []

/-- The report on a request, given the text of the file that its path names, if there is one. -/
def run (settings : Settings) (q : Request) (content : Option Text) : Traced Report := do
  .note 2 "Checking environment...".toList
  match content with
  | none => return .stop [] (.noTable (normalizePath q.table))
  | some t =>
    .note 2 ("Route table: ".toList ++ normalizePath q.table)
    match Table.ofText t with
    | .error (.noDigits cause) => .fail (.noDigits cause.base)
    | .error e => return .stop [] (.badTable e)
    | .ok table =>
      .note 2 ("Loaded ".toList ++ Text.ofNat table.routes.length ++ " route definitions from ".toList ++
        fileName q.table)
      match ← (table.build settings).caught with
      | .error e => stopAt [] .badRoute e
      | .ok r =>
        .note 1 ("Built route tree with ".toList ++ Text.ofNat table.routes.length ++ " routes".toList)
        resolve r q

/-- The report on what a command line asks for, given the text of the file that it names, if there is one. There is no
report where it asks for information. -/
def Invocation.report (settings : Settings) (content : Option Text) : Invocation → Option (Traced Report)
  | run q => some (Command.run settings q content)
  | information => none
  | refused => some (pure (.stop [] .usage))

end Routing.Command
