import Routing.Mapping
import Routing.Pattern.QuerySuffix
import Routing.Pattern.Rule
import Routing.Regex.Match
import Routing.Regex.Reader
import Routing.Trace

/-!
# Routes

A route has a name, a pattern, default parameters, a content that it carries for the application, and data that
the application attaches to it. Its pattern is kept with all that is made from it.

`RoutePattern.assign` goes through the stages of a pattern one by one: path and query names, tokens, rule, the two
expressions that paths are matched with, and the expressions that split repeated runs. A stage that fails ends it,
and what the stages before it made stays.
-/

namespace Routing

open Pattern

/-- The pattern of a route. -/
structure RoutePattern where
  /-- The pattern of the path, without a leading slash. -/
  path : Text := []
  queryNames : List Text := []
  tokens : Tokenized := ⟨[], []⟩
  rule : Rule := {}
  /-- Matches a beginning of every path that the route or one below it may match. -/
  entry : Regex := .empty
  /-- Matches the paths of the route, with or without a slash at the end. -/
  whole : Regex := .empty
  /-- The expressions that cut the runs of repeated variables into values, by variable. -/
  splitters : List (Text × Regex) := []
  deriving Repr, Inhabited

/-- The note on a pattern that was tokenized. -/
def noteTokens (t : Tokenized) : Traced Unit :=
  .note 3 ("Tokenized '".toList ++ t.source ++ "' into ".toList ++ Text.ofNat t.tokens.length ++
    " top-level tokens".toList)

/-- The tokens of a pattern. -/
def tokenizeTraced (delimiter pattern : Text) : Traced Tokenized := do
  match tokenize delimiter pattern with
  | .error e => .fail (.badPattern e)
  | .ok t =>
    noteTokens t
    return t

/-- The rule of a pattern. -/
def ruleTraced (delimiter pattern : Text) : Traced Rule := do
  let t ← tokenizeTraced delimiter pattern
  match t.rule with
  | .error e => .fail (.badPattern e)
  | .ok r =>
    .note 3 ("Compiled '".toList ++ pattern ++ "' → ".toList ++ r.regex)
    return r

/-- The expression that a text writes, or the error that it writes none. -/
def readRegex (t : Text) : Except RouteError Regex :=
  match Regex.read t with
  | .ok r => .ok r
  | .error .malformed => .error .badRegex
  | .error .countTooLarge => .error .countTooLarge

/-- What a search for an expression found. A match in which a capture ends before it starts is an error. -/
def sound (r : Regex) (found : Option Regex.Cursor) : Except RouteError (Option Regex.Cursor) :=
  if found.any r.crosses then .error .crossedCapture else .ok found

/-- The expressions that split the runs of repeated variables. A run is split with the delimiter `/`. -/
def splittersOf : List Variable → Traced (List (Text × Regex))
  | [] => pure []
  | v :: rest =>
    match v.repeated with
    | none => splittersOf rest
    | some raw => do
      let r ← ruleTraced ['/'] raw
      let splitter ← (readRegex r.regex : Except RouteError Regex)
      let others ← splittersOf rest
      return (v.name, splitter) :: others

/-- The expression of a rule's paths, with or without a slash at the end. -/
def wholeOf (r : Rule) : Text := part r.regex ++ ['/', '?']

namespace RoutePattern

/-- The pattern after a new one is assigned over `old`, and the error that ended the assignment, if one did. -/
def assign (old : RoutePattern) (delimiter source : Text) : Traced (RoutePattern × Option RouteError) := do
  let split := splitSuffix source
  let named := { old with path := Text.dropLeading '/' split.1, queryNames := split.2 }
  match ← (tokenizeTraced delimiter named.path).caught with
  | .error e => return (named, some e)
  | .ok tokens =>
    let tokenized := { named with tokens }
    match tokens.rule with
    | .error e => return (tokenized, some (.badPattern e))
    | .ok rule =>
      let ruled := { tokenized with rule }
      match readRegex rule.regex with
      | .error e => return (ruled, some e)
      | .ok entry =>
        let entered := { ruled with entry }
        match readRegex (wholeOf rule) with
        | .error e => return (entered, some e)
        | .ok whole =>
          let closed := { entered with whole }
          match ← (splittersOf rule.vars).caught with
          | .error e => return (closed, some e)
          | .ok splitters => return ({ closed with splitters }, none)

/-- The pattern that a text writes. -/
def ofText (delimiter source : Text) : Traced RoutePattern := do
  let (pattern, failure) ← assign {} delimiter source
  match failure with
  | some e => .fail e
  | none => return pattern

/-- The pattern of the path followed by the query suffix. -/
def written (p : RoutePattern) : Text := p.path ++ writeSuffix p.queryNames

/-- The pattern of a route below this one, given the part that it adds. One slash stands between the two. -/
def extend (p : RoutePattern) (fragment : Text) : Text :=
  let split := splitSuffix fragment
  let added := Text.dropLeading '/' split.1
  let joined :=
    if p.path.isEmpty then added
    else if added.isEmpty then p.path
    else p.path ++ '/' :: added
  joined ++ writeSuffix split.2

end RoutePattern

/-- A route. Its number tells it from every other route there ever was in its tree; the segment is its name among
the routes with the same parent. -/
structure Route where
  id : Nat
  segment : Text := []
  name : Text := []
  defaults : Mapping Value := .empty
  content : Mapping Value := .empty
  delimiter : Text
  data : Mapping Value := .empty
  pattern : RoutePattern := {}
  deriving Repr, Inhabited

/-- The route as it is shown in messages. -/
def Route.shown (r : Route) : Text :=
  "Route(name=".toList ++ Text.quoted r.name ++ ", pattern=".toList ++ Text.quoted r.pattern.path ++ [')']

end Routing
