import Routing.Query
import Routing.Route

/-!
# Parameters of a route

The parameters of a match come from three sources: the path, the query and the defaults of the route. The path
wins over the query and the query over the defaults, but a variable that is absent from the path hides neither.

A variable of the path has the percent-decoded text that its capture took, or null. A repeated variable has a list
with one item for each round of its group; an item that holds a slash is itself a list.
-/

namespace Routing

namespace Route

/-- The value that one round of a repeated group gives. -/
def roundValue (t : Text) : Value :=
  if t.contains '/' then .list ((Text.splitOn '/' t).map fun piece => .str (Text.percentDecode piece))
  else .str (Text.percentDecode t)

/-- The text that the first capture of a round took. -/
def roundText (splitter : Regex) (round : Regex.Cursor) : Option Text :=
  (List.range splitter.captureCount).findSome? fun i => round.captured (i + 1)

/-- The values that a run of rounds gives. -/
def splitRun (splitter : Regex) (run : Text) : Except RouteError (List Value) := do
  let rounds := splitter.search run
  if rounds.any splitter.crosses then throw .crossedCapture
  return rounds.filterMap fun round => (roundText splitter round).map roundValue

/-- The value of a variable, given the text of its capture. -/
def variableValue (p : RoutePattern) (v : Pattern.Variable) (captured : Option Text) : Except RouteError Value :=
  let t := captured.getD []
  match v.repeated with
  | none => .ok (if t.isEmpty then .null else .str (Text.percentDecode t))
  | some _ =>
    if t.isEmpty then .ok (.list [])
    else
      match p.splitters.lookup v.name with
      | some splitter => (splitRun splitter t).map .list
      | none => .error (.noSplitter v.name)

/-- The values of the variables from capture `index` on. -/
def valuesFrom (p : RoutePattern) (matched : Regex.Cursor) (index : Nat) :
    List Pattern.Variable → Except RouteError (List (Text × Value))
  | [] => .ok []
  | v :: rest => do
    if p.whole.captureCount < index then throw .noCapture
    let value ← variableValue p v (matched.captured index)
    let others ← valuesFrom p matched (index + 1) rest
    return (v.name, value) :: others

/-- The values of the path variables after a match. -/
def values (r : Route) (matched : Regex.Cursor) : Except RouteError (Mapping Value) :=
  (valuesFrom r.pattern matched 1 r.pattern.rule.vars).map .ofList

/-- Whether a path variable is absent from the path. -/
def isAbsent : Value → Bool
  | .null => true
  | .list [] => true
  | _ => false

/-- The parameters that defaults, query and path variables give together. -/
def mergeParams (r : Route) (values query : Mapping Value) : Mapping Value :=
  values.entries.foldl
    (fun params (name, value) => if isAbsent value && params.contains name then params else params.put name value)
    (r.defaults.putAll query)

/-- The query variables of the route that have a value in `params`. -/
def pickQuery (r : Route) (params : Mapping Value) : Mapping Value :=
  .ofList (r.pattern.queryNames.filterMap fun name =>
    match params.get? name with
    | some v => if v.isNull then none else some (name, v)
    | none => none)

/-- The text of a parameter, which is that of null for one that is not given. -/
def paramText (params : Mapping Value) (name : Text) : Text := ((params.get? name).getD .null).text

/-- Whether the query variables of the route have the same texts in two mappings. -/
def sameQuery (r : Route) (before after : Mapping Value) : Bool :=
  r.pattern.queryNames.all fun name => paramText before name == paramText after name

end Route

end Routing
