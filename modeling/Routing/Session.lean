import Routing.Router

/-!
# Sessions

A session is a router together with the transitions that were put aside under a name. A change to a route shows
everywhere the route occurs: in the tree, in the lineage of the current route and in the transitions put aside.
A route that was replaced in the tree still belongs to these.
-/

namespace Routing

/-- A lineage in which a route stands for its earlier states. -/
def Lineage.refresh (changed : Route) (lineage : Lineage) : Lineage :=
  lineage.map fun r => if r.id = changed.id then changed else r

/-- A transition in which a route stands for its earlier states. -/
def Transition.refresh (changed : Route) (t : Transition) : Transition :=
  { t with source := t.source.map (Lineage.refresh changed), target := Lineage.refresh changed t.target }

/-- A router and the transitions put aside. -/
structure Session where
  router : Router
  saved : Mapping (Option Transition) := .empty

namespace Session

/-- The session with a transition, or the lack of one, put aside. -/
def save (s : Session) (slot : Text) (t : Option Transition) : Session := { s with saved := s.saved.put slot t }

/-- The transition that was put aside under a name. -/
def slot? (s : Session) (slot : Text) : Option Transition := (s.saved.get? slot).join

/-- The session with one route changed. -/
def changeRoute {α : Type} (s : Session) (start : List Text) (f : Route → Traced (Route × α)) :
    Traced (Session × α) := do
  let (tree, changed, a) ← s.router.tree.change start fun r => do
    let (changed, a) ← f r
    return (changed, changed, a)
  let router := { s.router with tree, current := s.router.current.map (Lineage.refresh changed) }
  return ({ router, saved := s.saved.map fun t => t.map (Transition.refresh changed) }, a)

/-- The session with the pattern of a route assigned, and the error that ended the assignment, if one did. -/
def setPattern (s : Session) (start : List Text) (source : Text) : Traced (Session × Option RouteError) :=
  s.changeRoute start fun r => do
    let (pattern, failure) ← r.pattern.assign r.delimiter source
    return ({ r with pattern }, failure)

/-- The session with the data of a route changed. -/
def changeData (s : Session) (start : List Text) (f : Mapping Value → Mapping Value) : Traced (Session × Unit) :=
  s.changeRoute start fun r => return ({ r with data := f r.data }, ())

end Session

end Routing
