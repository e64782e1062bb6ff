import Routing.Route.Params
import Routing.Route.Path

/-!
# Route trees

A tree of routes grows from a root without a name and with the empty pattern. A route is reached by the segments
from the root down to it; its name is the segments with dots between them, and its pattern continues the pattern
of its parent.

Adding under a segment that is taken replaces the route there, and all below it, in its place. The number of a
route is not used again, so a route that was replaced is never taken for the one that replaced it.
-/

namespace Routing

/-- A route and all routes below it, in the order in which their segments were first added. -/
inductive Branch where
  | node (route : Route) (children : List Branch)
  deriving Repr, Inhabited

/-- The routes from the root down to a route, that one included. -/
abbrev Lineage := List Route

/-- How a route is asked for. -/
inductive RouteName where
  | none
  /-- Segments with dots between them. -/
  | dotted (t : Text)
  | segments (names : List Text)
  deriving DecidableEq, Repr

/-- The segments of a name. -/
def RouteName.split : RouteName → Except RouteError (List Text)
  | none => .error .emptyName
  | dotted [] => .error .emptyName
  | dotted (c :: rest) => .ok (Text.splitOn '.' (c :: rest))
  | segments names => .ok names

/-- A route with what is above and below it. -/
structure Place where
  /-- The routes from the root down to the parent. -/
  above : List Route
  branch : Branch
  deriving Repr, Inhabited

namespace Branch

/-- The route at the top. -/
def route : Branch → Route
  | node route _ => route

/-- The branches right below. -/
def children : Branch → List Branch
  | node _ children => children

/-- The branch of a segment among some branches. -/
def named (segment : Text) (branches : List Branch) : Option Branch :=
  branches.find? fun b => b.route.segment == segment

/-- Some branches with one of them put in: in the place of the one with its segment, else as the last. -/
def setAmong (b : Branch) : List Branch → List Branch
  | [] => [b]
  | c :: rest => if c.route.segment = b.route.segment then b :: rest else c :: setAmong b rest

mutual

/-- All routes, every one before those below it. -/
def routes : Branch → List Route
  | node route children => route :: routesOf children

/-- All routes of some branches. -/
def routesOf : List Branch → List Route
  | [] => []
  | b :: rest => b.routes ++ routesOf rest

end

/-- The routes below the top, every one before those below it. -/
def walk (b : Branch) : List Route := routesOf b.children

/-- The branch that some segments lead to, with the routes above it. -/
def fetch (above : List Route) (b : Branch) : List Text → Except RouteError Place
  | [] => .ok ⟨above, b⟩
  | segment :: rest =>
    match named segment b.children with
    | some child => child.fetch (above ++ [b.route]) rest
    | none => .error (.unknownRoute segment b.route.name)

/-- The branch with the one that some segments lead to changed by `change`. -/
def changeAt {α : Type} (change : Branch → Traced (Branch × α)) (b : Branch) : List Text → Traced (Branch × α)
  | [] => change b
  | segment :: rest =>
    match named segment b.children with
    | some child => do
      let (changed, a) ← changeAt change child rest
      return (node b.route (setAmong changed b.children), a)
    | none => .fail (.unknownRoute segment b.route.name)

end Branch

/-- What a route is added with. -/
structure RouteSpec where
  pattern : Text := []
  content : Mapping Value := .empty
  defaults : Mapping Value := .empty
  deriving Repr, Inhabited

namespace Branch

/-- The route that a parent gets under a segment. -/
def child (id : Nat) (parent : Route) (segment : Text) (spec : RouteSpec) : Traced Route := do
  let pattern ← RoutePattern.ofText parent.delimiter (parent.pattern.extend spec.pattern)
  return {
    id, segment, pattern
    name := if parent.name.isEmpty then segment else parent.name ++ '.' :: segment
    defaults := spec.defaults
    content := spec.content
    delimiter := parent.delimiter }

/-- The branch with a route added under some segments, all of which but the last lead to a route already. -/
def attach (id : Nat) (spec : RouteSpec) (b : Branch) : List Text → Traced Branch
  | [] => .fail .noSegments
  | [segment] => do
    if (named segment b.children).isSome then
      .note 2 ("Replacing route '".toList ++ segment ++ "' of '".toList ++ b.route.name ++ ['\''])
    let r ← child id b.route segment spec
    .note 2 ("Added route '".toList ++ r.name ++ "': ".toList ++ r.pattern.path ++ " → ".toList ++
      r.pattern.rule.regex)
    return node b.route (setAmong (node r []) b.children)
  | segment :: next :: rest =>
    match named segment b.children with
    | some inner => do
      let changed ← attach id spec inner (next :: rest)
      return node b.route (setAmong changed b.children)
    | none => .fail (.unknownParent segment)

/-! ### Matching -/

/-- A route that matches a path: the routes from the start of the search down to its parent, the route, and the
match of its expression. -/
structure Selection where
  above : List Route
  route : Route
  found : Regex.Cursor
  deriving Repr

mutual

/-- The first route, a branch below another before it, that matches the whole path, where every route on the way
down to it matches a beginning of the path. -/
def select (path : Text) : Branch → Except RouteError (Option Selection)
  | node route children => do
    match ← sound route.pattern.entry (route.pattern.entry.matchStart path) with
    | none => return none
    | some _ =>
      match ← selectAmong path children with
      | some s => return some { s with above := route :: s.above }
      | none =>
        let found ← sound route.pattern.whole (route.pattern.whole.matchWhole path)
        return found.map fun found => ⟨[], route, found⟩

/-- The first selection in some branches. -/
def selectAmong (path : Text) : List Branch → Except RouteError (Option Selection)
  | [] => return none
  | b :: rest => do
    match ← b.select path with
    | some s => return some s
    | none => selectAmong path rest

end

/-- The query parameters that a match has: those given, and those of the query that a route on the way declares. -/
def Selection.queryParams (s : Selection) (query given : Mapping Value) : Mapping Value :=
  (s.above ++ [s.route]).foldl (fun params r => params.putAllNew (r.pickQuery query)) given

/-- A matched route with the routes above it, and its parameters. -/
structure Matched where
  above : List Route
  route : Route
  params : Mapping Value
  deriving Repr

/-- Matches a path, without its leading slash, against a branch. -/
def matchPath (b : Branch) (path : Text) (query given : Mapping Value) : Traced (Option Matched) := do
  match ← (b.select path : Except RouteError (Option Selection)) with
  | none => return none
  | some s =>
    .note 3 ("Route '".toList ++ s.route.name ++ "' matched '".toList ++ path ++ ['\''])
    let values ← (s.route.values s.found : Except RouteError (Mapping Value))
    return some ⟨s.above, s.route, s.route.mergeParams values (s.queryParams query given)⟩

end Branch

namespace Place

/-- The route itself. -/
def route (p : Place) : Route := p.branch.route

/-- The routes from the root down to the route itself. -/
def lineage (p : Place) : Lineage := p.above ++ [p.route]

/-- The parent. -/
def parent (p : Place) : Option Route := p.above.getLast?

end Place

/-- A tree of routes. -/
structure Tree where
  root : Branch
  /-- The number that the next route gets. -/
  next : Nat
  deriving Repr, Inhabited

namespace Tree

/-- A tree without routes below its root. -/
def create (delimiter : Text) : Traced Tree := do
  let pattern ← RoutePattern.ofText delimiter []
  return ⟨.node { id := 0, delimiter, pattern } [], 1⟩

/-- The route of a name. -/
def fetch (t : Tree) (name : RouteName) : Except RouteError Place := do
  t.root.fetch [] (← name.split)

/-- The tree with a route added. -/
def add (t : Tree) (name : RouteName) (spec : RouteSpec) : Traced Tree := do
  let root ← Branch.attach t.next spec t.root (← (name.split : Except RouteError (List Text)))
  return ⟨root, t.next + 1⟩

/-- The tree with a route added below the one that `start` leads to. -/
def addBelow (t : Tree) (start : List Text) (name : RouteName) (spec : RouteSpec) : Traced Tree := do
  let (root, _) ← t.root.changeAt (fun b => do
    let grown ← Branch.attach t.next spec b (← (name.split : Except RouteError (List Text)))
    return (grown, ())) start
  return ⟨root, t.next + 1⟩

/-- The tree with one route changed. -/
def change {α : Type} (t : Tree) (start : List Text) (f : Route → Traced (Route × α)) : Traced (Tree × α) := do
  let (root, a) ← t.root.changeAt (fun b => do
    let (route, a) ← f b.route
    return (.node route b.children, a)) start
  return (⟨root, t.next⟩, a)

/-- How many routes the tree has, its root included. -/
def size (t : Tree) : Nat := t.root.routes.length

end Tree

end Routing
