import Routing.Tree

/-!
# Transitions

A transition leads from one route to another. The ancestors of both, from the root down, have a common part: the
routes that are the same, whose query variables have the same texts and whose links are the same under the
parameters before and after. The routes of the old chain beyond it are left, deepest first, and those of the new
chain beyond it are entered.
-/

namespace Routing

/-- A step from a route, if there was one, to another route with its parameters. -/
structure Transition where
  /-- The lineage of the route that is left. -/
  source : Option Lineage
  /-- The lineage of the route that is entered. -/
  target : Lineage
  params : Mapping Value
  /-- The scope of the links that are compared. -/
  scope : Option Text := none
  deriving Repr, Inhabited

/-- The name of the last route of a lineage. -/
def lineageName (lineage : Lineage) : Text := (lineage.getLast?.map Route.name).getD []

namespace Transition

/-- The transition as it is shown in notes. -/
def shown (t : Transition) : Text :=
  "Transition(from=".toList ++
    (match t.source with | some lineage => Text.quoted (lineageName lineage) | none => "None".toList) ++
    ", to=".toList ++ Text.quoted (lineageName t.target) ++ [')']

/-- Whether a route has the same link before and after. A link that cannot be written makes it differ; any other
failure is one of the comparison. -/
def sameLink (t : Transition) (settings : Settings) (r : Route) (before : Mapping Value) : Traced Bool := do
  let options : LinkOptions := { scope := t.scope }
  let links : Except RouteError (Text × Text) := do
    let old ← r.link settings before options none
    let new ← r.link settings t.params options none
    return (old, new)
  match links with
  | .ok (old, new) => return old == new
  | .error e =>
    match e with
    | .missingParameter _ _ _ | .mismatch _ _ _ =>
      .note 3 ("Route '".toList ++ r.name ++ "' cannot be compared: ".toList ++ e.message)
      return false
    | _ => .fail e

/-- How many routes of two lineages are common, from the root down. -/
def common (t : Transition) (settings : Settings) (before : Mapping Value) : Lineage → Lineage → Traced Nat
  | r :: old, s :: new => do
    if r.id != s.id || !r.sameQuery before t.params then return 0
    if !(← t.sameLink settings r before) then return 0
    return (← common t settings before old new) + 1
  | _, _ => return 0

/-- How many routes are kept, given the parameters before. -/
def junctionIndex (t : Transition) (settings : Settings) (before : Mapping Value) : Traced Nat := do
  match t.source with
  | none => return 0
  | some lineage =>
    let index ← t.common settings before lineage t.target
    .note 3 (t.shown ++ " shares ".toList ++ Text.ofNat index ++ " route(s)".toList)
    return index

/-- The routes to leave, deepest first. -/
def disabled (t : Transition) (settings : Settings) (before : Mapping Value) : Traced (List Route) := do
  match t.source with
  | none => return []
  | some lineage => return (lineage.drop (← t.junctionIndex settings before)).reverse

/-- The routes to enter, the one nearest to the root first. -/
def enabled (t : Transition) (settings : Settings) (before : Mapping Value) : Traced (List Route) := do
  return t.target.drop (← t.junctionIndex settings before)

/-- The deepest route that is kept, the parent of the first one to enter; none if no route is entered. -/
def junction (t : Transition) (settings : Settings) (before : Mapping Value) : Traced (Option Route) := do
  let entered ← t.enabled settings before
  if entered.isEmpty then return none
  return (t.target.take (t.target.length - entered.length)).getLast?

end Transition

end Routing
