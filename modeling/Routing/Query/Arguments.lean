import Routing.Error
import Routing.Mapping

/-!
# Parameters from arguments

Parameters are given one by one as `KEY=VALUE`. The values of a key are collected in order; a key that is given
more than once has the list of its values.
-/

namespace Routing.Query

/-- The key and the value of an argument. The first equals sign ends the key, which is not empty. -/
def readArgument (argument : Text) : Except RouteError (Text × Text) :=
  match Text.cut '=' argument with
  | (c :: rest, some value) => .ok (c :: rest, value)
  | _ => .error (.badPair argument)

/-- The keys and the values of some arguments. -/
def readArguments (arguments : List Text) : Except RouteError (List (Text × Text)) := arguments.mapM readArgument

/-- All values of each key, in order. -/
def collect (pairs : List (Text × Text)) : Mapping (List Text) :=
  pairs.foldl (fun m (key, value) => m.put key ((m.get? key).getD [] ++ [value])) .empty

/-- The value that a parameter has when some texts are given for it. -/
def ofTexts : List Text → Value
  | [t] => .str t
  | texts => .list (texts.map .str)

/-- The parameters that some arguments give. -/
def ofArguments (arguments : List Text) : Except RouteError (Mapping Value) :=
  (readArguments arguments).map fun pairs => (collect pairs).map ofTexts

end Routing.Query
