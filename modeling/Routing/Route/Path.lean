import Routing.Query
import Routing.Route
import Routing.Settings

/-!
# Paths and links

A path is written from the tokens of a pattern and the values of its variables. A value is percent-coded, and its
coded form has to match the capture of its variable. A group without a value for one of its variables is left out
as a whole if it may be absent. A repeated group is written once for each item of its variable.

A link puts the base path and a scope before the path, and the query after it.
-/

namespace Routing

open Pattern

/-- The marks that a path may hold beside the unreserved ones. -/
def isPathChar (c : Char) : Bool := Text.isUnreserved c || ['!', '*', '\'', '(', ')'].contains c

/-- The percent-coded form of a value; the items of a list stand between slashes. -/
def encodeValue (v : Value) : Text :=
  Text.join ['/'] (v.parts.map fun item => Text.percentEncode isPathChar item.text)

/-- The coded form of the value of a variable, which its capture has to match. -/
def writeValue (name capture : Text) (v : Value) : Except RouteError Text := do
  let r ← readRegex capture
  match ← sound r (r.matchWhole (encodeValue v)) with
  | some _ => return encodeValue v
  | none => throw (.mismatch name capture (encodeValue v))

/-- What paths are written for: the route and the pattern that errors name. -/
structure PathFor where
  route : Text
  pattern : Text

namespace PathFor

/-- The error that a variable has no value. -/
def missing (w : PathFor) (name : Text) : RouteError := .missingParameter name w.route w.pattern

/-- The texts of some items, one after the other. -/
def writeEach (write : Value → Except RouteError Text) : List Value → Except RouteError Text
  | [] => .ok []
  | v :: rest => do
    let t ← write v
    let others ← writeEach write rest
    return t ++ others

/-- The text of one level of a token tree, after the text `before` of the level. -/
def write (w : PathFor) (absentAllowed : Bool) (params : Mapping Value) (before : Text) :
    List Token → Except RouteError Text
  | [] => .ok before
  | .literal text :: rest => write w absentAllowed params (before ++ text) rest
  | .variable name capture :: rest =>
    match params.get? name with
    | none | some .null => if absentAllowed then .ok [] else .error (w.missing name)
    | some v => do
      let t ← writeValue name capture v
      write w absentAllowed params (before ++ t) rest
  | .group suffix none _ children :: rest => do
    let t ← write w suffix.mayBeAbsent params [] children
    write w absentAllowed params (before ++ t) rest
  | .group suffix (some name) _ children :: rest => do
    let items := ((params.get? name).getD .null).items
    if items.isEmpty && !suffix.mayBeAbsent then throw (w.missing name)
    let t ← writeEach (fun item => write w suffix.mayBeAbsent (params.put name item) [] children) items
    write w absentAllowed params (before ++ t) rest

end PathFor

/-- What a link takes its base path from. -/
inductive Base where
  /-- What is usual where the link is asked for. -/
  | usual
  /-- The settings. -/
  | configured
  | path (t : Text)
  deriving DecidableEq, Repr

/-- A query as it is given for a link. -/
inductive LinkQuery where
  | text (t : Text)
  | mapping (m : Mapping Value)
  deriving Repr

/-- The mapping that a given query stands for. -/
def LinkQuery.params : LinkQuery → Mapping Value
  | text t => Query.parse t
  | mapping m => m

/-- How a link is written around its path. -/
structure LinkOptions where
  base : Base := .usual
  /-- A prefix between the base path and the path. -/
  scope : Option Text := none
  absolute : Bool := false
  scheme : Option Text := none
  host : Option Text := none
  deriving Repr

/-- A text that is given and not empty, or the one to take instead. -/
def givenOr (given : Option Text) (instead : Text) : Text :=
  match given with
  | some (c :: rest) => c :: rest
  | _ => instead

namespace LinkOptions

/-- What stands before the path. -/
def start (o : LinkOptions) (settings : Settings) : Text :=
  let base := settings.base (match o.base with | .path t => some t | _ => none)
  match o.scope with
  | some (c :: rest) => base ++ '/' :: Text.strip '/' (c :: rest)
  | _ => base

/-- What stands before an absolute link. -/
def origin (o : LinkOptions) (settings : Settings) : Text :=
  givenOr o.scheme settings.defaultScheme ++ "://".toList ++ givenOr o.host settings.defaultHost

/-- The link to a path. -/
def link (o : LinkOptions) (settings : Settings) (path : Text) (query : Option LinkQuery) : Text :=
  let place := o.start settings ++ path
  let place := if place.isEmpty then ['/'] else place
  let search := Query.serialize ((query.map LinkQuery.params).getD .empty)
  let relative := if search.isEmpty then place else place ++ '?' :: search
  if o.absolute then o.origin settings ++ relative else relative

end LinkOptions

namespace Route

/-- The text that the tokens of the route give for some parameters over its defaults. -/
def text (r : Route) (params : Mapping Value) : Except RouteError Text :=
  PathFor.write ⟨r.name, r.pattern.path⟩ false (r.defaults.putAll params) [] r.pattern.tokens.tokens

/-- The path of the route, with one slash before it unless it is empty. -/
def path (r : Route) (params : Mapping Value) : Except RouteError Text :=
  (r.text params).map fun t =>
    let core := Text.dropLeading '/' t
    if core.isEmpty then [] else '/' :: core

/-- The link to the route. -/
def link (r : Route) (settings : Settings) (params : Mapping Value) (o : LinkOptions) (query : Option LinkQuery) :
    Except RouteError Text :=
  (r.path params).map fun path => o.link settings path query

end Route

end Routing
