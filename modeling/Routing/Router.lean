import Routing.Transition

/-!
# Routers

A router has a tree of routes, a base path, and the route that is current. It finds the route of a location and
follows redirections, and it writes links to routes by name.

A redirection names another route in the content of a route. Following stops with an error as soon as a name comes
back, so it never goes further than the tree has routes.
-/

namespace Routing

/-- The routes of an application and the state it is in. -/
structure Router where
  settings : Settings
  /-- The base path in normal form. -/
  basePath : Text
  tree : Tree
  /-- The lineage of the current route. -/
  current : Option Lineage := none
  currentParams : Mapping Value := .empty
  deriving Repr

namespace Router

/-- A router without routes. -/
def create (settings : Settings) (basePath delimiter : Option Text) : Traced Router := do
  let tree ← Tree.create (givenOr delimiter settings.delimiter)
  return { settings, basePath := settings.base basePath, tree }

/-- The router with a route added. -/
def add (r : Router) (name : RouteName) (spec : RouteSpec) : Traced Router := do
  let tree ← r.tree.add name spec
  return { r with tree }

/-! ### Locations -/

/-- A path without the base path that it starts with. The base path ends at a slash or at the end of the path. -/
def dropBase (base path : Text) : Text :=
  if base.isPrefixOf path then
    match path.drop base.length with
    | [] => []
    | ['\n'] => ['\n']
    | '/' :: rest => rest
    | _ => path
  else path

/-- A path without the index file that it ends with. -/
def dropIndex (index path : Text) : Text :=
  if !index.isEmpty && ('/' :: index).isSuffixOf path then path.take (path.length - index.length) else path

/-- A path with one slash before it. -/
def rooted (path : Text) : Text := '/' :: Text.dropLeading '/' path

/-- A location without base path and index file, its path with one slash before it. -/
def normalize (r : Router) (location : Text) : Text :=
  let (path, query) := Text.cut '?' location
  let path := rooted path
  let path := if r.basePath.isEmpty then path else '/' :: dropBase r.basePath path
  let path := rooted (dropIndex r.settings.indexFile path)
  match query with
  | some (c :: rest) => path ++ '?' :: c :: rest
  | _ => path

/-! ### Redirections -/

/-- The key of a content that names the route to go to instead. -/
def redirectKey : Text := "redirect_to".toList

/-- The target of a redirection. -/
def redirectTarget (r : Route) : Except RouteError (Option Text) :=
  match r.content.get? redirectKey with
  | none => .ok none
  | some v =>
    if !v.isTruthy then .ok none
    else
      match v with
      | .str t => .ok (some t)
      | .list _ => .error (.wrongKind (.structuredTarget "list".toList))
      | .object _ => .error (.wrongKind (.structuredTarget "dict".toList))
      | .int _ => .error (.wrongKind (.plainTarget "int".toList))
      | .float _ => .error (.wrongKind (.plainTarget "float".toList))
      | .bool _ => .error (.wrongKind (.plainTarget "bool".toList))
      | .null => .ok none

/-- The lineage that redirections lead to from a route, given the names they went through. Each step goes through
one more name of a route, so `fuel` steps are enough when the tree has fewer routes. -/
def followFrom (tree : Tree) : Nat → List Text → Route → Lineage → Except RouteError Lineage
  | fuel, seen, route, lineage => do
    match ← redirectTarget route with
    | none => return lineage
    | some target =>
      if seen.contains target then throw (.redirectLoop target)
      match fuel with
      | 0 => throw (.redirectLoop target)
      | fuel + 1 =>
        let place ← tree.fetch (.dotted target)
        followFrom tree fuel (target :: seen) place.route place.lineage

/-- The lineage that redirections lead to from the last route of one. -/
def follow (tree : Tree) (route : Route) (lineage : Lineage) : Except RouteError Lineage :=
  followFrom tree (tree.size + 1) [route.name] route lineage

/-! ### Matching -/

/-- The transition to the route of a location. -/
def matchLocation (r : Router) (location : Text) : Traced (Option Transition) := do
  let location := r.normalize location
  let (path, query) := Text.cut '?' location
  let queryParams := match query with
    | some (c :: rest) => Query.parse (c :: rest)
    | _ => .empty
  match ← r.tree.root.matchPath (Text.dropLeading '/' path) queryParams .empty with
  | none =>
    .note 2 ("No route matches '".toList ++ location ++ ['\''])
    return none
  | some m =>
    let target ← (follow r.tree m.route (m.above ++ [m.route]) : Except RouteError Lineage)
    .note 2 (['\''] ++ location ++ "' matches route '".toList ++ lineageName target ++ ['\''])
    return some { source := r.current, target, params := m.params }

/-- The router with the target of a transition as its current route. -/
def commit (r : Router) (t : Transition) : Router :=
  { r with current := some t.target, currentParams := t.params }

/-- Whether a name is that of the current route or of one above it, and the given parameters are current. -/
def isActive (r : Router) (name : RouteName) (params : Mapping Value) : Except RouteError Bool :=
  match r.current with
  | none => .ok false
  | some lineage =>
    match name with
    | .none => .error (.wrongKind .unnamedActive)
    | .segments _ => .error (.wrongKind .segmentedActive)
    | .dotted t =>
      let current := lineageName lineage
      .ok ((t == current || (t ++ ['.']).isPrefixOf current) &&
        params.entries.all fun (name, value) => Route.paramText r.currentParams name == value.text)

/-! ### Links -/

/-- The characters that a URL scheme starts with. -/
def schemeStart : Regex.CharSet := ⟨[.range 97 122], false, true⟩

/-- The characters that a URL scheme goes on with. -/
def schemeChar : Regex.CharSet :=
  ⟨[.range 97 122, .range 48 57, .range 43 43, .range 46 46, .range 45 45], false, true⟩

/-- Whether a text is a URL with its host, with or without a scheme. -/
def isAbsolute : Text → Bool
  | '/' :: '/' :: _ => true
  | c :: rest => schemeStart.holds c && "://".toList.isPrefixOf (rest.dropWhile schemeChar.holds)
  | [] => false

/-- The query variables of the routes on the way to a name that have a value in `params`. -/
def chainQuery (r : Router) (name : RouteName) (params : Mapping Value) : Except RouteError (Mapping Value) := do
  let segments ← name.split
  let place ← r.tree.root.fetch [] segments
  return (place.lineage.drop 1).foldl (fun query route => query.putAll (route.pickQuery params)) .empty

/-- Link options with the base path of the router as the usual one. -/
def linkOptions (r : Router) (o : LinkOptions) : LinkOptions :=
  match o.base with
  | .usual => { o with base := .path r.basePath }
  | _ => o

/-- The name that a link is asked for by, `.` being that of the current route. -/
def resolveName (r : Router) (name : RouteName) : Except RouteError RouteName :=
  if name = .dotted ['.'] then
    match r.current with
    | none => .error .noCurrent
    | some lineage => .ok (.dotted (lineageName lineage))
  else .ok name

/-- The link to a route by name, where the name is no URL. -/
def linkTo (r : Router) (name : RouteName) (params : Mapping Value) (query : Option LinkQuery) (o : LinkOptions) :
    Except RouteError Text := do
  let place ← r.tree.fetch (← r.resolveName name)
  let target ← follow r.tree place.route place.lineage
  let route := (target.getLast?).getD place.route
  match query with
  | some q => route.link r.settings params (r.linkOptions o) (some q)
  | none =>
    let picked ← r.chainQuery (.dotted route.name) params
    route.link r.settings params (r.linkOptions o) (some (.mapping picked))

/-- The link to a route by name. A URL is its own link. -/
def link (r : Router) (name : RouteName) (params : Mapping Value) (query : Option LinkQuery) (o : LinkOptions) :
    Except RouteError Text :=
  match name with
  | .segments (_ :: _) => .error (.wrongKind .segmentedLink)
  | .dotted t => if isAbsolute t then .ok t else r.linkTo name params query o
  | _ => r.linkTo name params query o

end Router

end Routing
