import Routing.Value

/-!
# Errors

The causes for which an operation fails. `RouteError.message` is the one place that holds their wording.
-/

namespace Routing

/-- Why a pattern is refused. -/
inductive PatternError where
  /-- The brackets of groups do not match. -/
  | unbalanced (pattern : Text)
  /-- A variable is declared twice. -/
  | duplicate (name : Text)
  /-- A repeatable group holds more than one variable. -/
  | cardinality (group : Text)
  deriving DecidableEq, Repr

/-- A value or a name that is of the wrong kind for its use. -/
inductive KindError where
  /-- Data set in bulk is no mapping. -/
  | bulkData
  /-- A redirection names a list or a dictionary. -/
  | structuredTarget (kind : Text)
  /-- A redirection names a number or a truth value. -/
  | plainTarget (kind : Text)
  /-- A link is asked for by a list of segments. -/
  | segmentedLink
  /-- The active route is asked for by a list of segments. -/
  | segmentedActive
  /-- The active route is asked for without a name. -/
  | unnamedActive
  /-- Two keys of an object have no order. -/
  | unordered (first second : Text)
  deriving DecidableEq, Repr

/-- Why an operation on routes fails. -/
inductive RouteError where
  | badPattern (cause : PatternError)
  /-- A capture, or the expression put together from captures, is no regular expression. -/
  | badRegex
  /-- A count in such an expression is too large. -/
  | countTooLarge
  | unknownParent (name : Text)
  | unknownRoute (name parent : Text)
  | missingParameter (name route pattern : Text)
  | mismatch (name capture value : Text)
  | emptyName
  /-- A route is added under an empty list of segments. -/
  | noSegments
  | redirectLoop (target : Text)
  /-- A link to the current route is asked for while there is none. -/
  | noCurrent
  /-- A capture ends before it starts. -/
  | crossedCapture
  /-- A variable has no capture of its own in the expression. -/
  | noCapture
  /-- A repeated variable has no expression that splits its runs. -/
  | noSplitter (name : Text)
  | badPair (pair : Text)
  /-- An integer in a route table has no digits. -/
  | noDigits (base : Nat)
  /-- A position is before the start of a text. -/
  | outsideText
  | unmatchedOrigin (location : Text)
  | wrongKind (cause : KindError)
  deriving DecidableEq, Repr

/-- The wording of a refused pattern. -/
def PatternError.message : PatternError → Text
  | unbalanced pattern =>
    "Number of opening '[' and closing ']' does not match in `'".toList ++ pattern ++ "'`.".toList
  | duplicate name => "Cannot use the same placeholder `".toList ++ name ++ "` twice.".toList
  | cardinality group =>
    "Only a single placeholder is allowed in repeatable segments, got `'".toList ++ group ++ "'`.".toList

/-- The wording of a wrong kind. -/
def KindError.message : KindError → Text
  | bulkData => "A mapping is required to set data in bulk.".toList
  | structuredTarget kind => "unhashable type: ".toList ++ Text.quoted kind
  | plainTarget kind => Text.quoted kind ++ " object is not iterable".toList
  | segmentedLink => "expected string or bytes-like object, got 'list'".toList
  | segmentedActive => "can only concatenate list (not \"str\") to list".toList
  | unordered first second =>
    "'<' not supported between instances of ".toList ++ Text.quoted first ++ " and ".toList ++ Text.quoted second
  | unnamedActive => "unsupported operand type(s) for +: 'NoneType' and 'str'".toList

/-- The wording of an error. An expression that is refused has none. -/
def RouteError.message : RouteError → Text
  | badPattern cause => cause.message
  | badRegex => []
  | countTooLarge => "the repetition number is too large".toList
  | unknownParent name => "Missing parent route `'".toList ++ name ++ "'`.".toList
  | unknownRoute name parent =>
    "Missing children route `'".toList ++ name ++ "'` for `'".toList ++ parent ++ "'`.".toList
  | missingParameter name route pattern =>
    "Missing parameters `'".toList ++ name ++ "'` for route: `'".toList ++ route ++ "#/".toList ++ pattern ++
      "'`.".toList
  | mismatch name capture value =>
    "Expected `'".toList ++ name ++ "'` to match `'".toList ++ capture ++ "'`, but received `'".toList ++ value ++
      "'`.".toList
  | emptyName => "A route's name can't be empty.".toList
  | noSegments => "list index out of range".toList
  | redirectLoop target => "Redirection loop on route `'".toList ++ target ++ "'`.".toList
  | noCurrent => "No current route available, the `'.'` shortcut can't be used.".toList
  | crossedCapture =>
    "The span of capturing group is wrong, please report a bug for the re module.".toList
  | noCapture => "no such group".toList
  | noSplitter name => Text.quoted name
  | badPair pair => "Expected KEY=VALUE, got ".toList ++ Text.quoted pair
  | unmatchedOrigin location => "No route matches the --from location ".toList ++ Text.quoted location
  | noDigits base => "invalid literal for int() with base ".toList ++ Text.ofNat base ++ ": ''".toList
  | outsideText => "string index out of range".toList
  | wrongKind cause => cause.message

end Routing
