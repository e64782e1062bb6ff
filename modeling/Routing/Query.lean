import Routing.Mapping
import Routing.Text.Digit
import Routing.Text.Percent
import Routing.Value

/-!
# Queries

A query is a list of pairs of a name and a value, written `name=value` with `&` between them. `Query.pairs` is
the decoded list.

`Query.parse` collects the values of each name. A name that occurs once has a text, one that occurs more often the
list of its values in order; a name that is written with brackets, `name[]` or `name[3]`, has a list also when it
occurs once. `Query.serialize` writes a mapping, a list under the bracketed name.
-/

namespace Routing.Query

/-- The text that one side of a pair stands for: a plus sign is a blank, the rest is percent-coded. -/
def decode (t : Text) : Text := Text.percentDecode (t.map fun c => if c = '+' then ' ' else c)

/-- One side of a pair as it is written. -/
def encode (t : Text) : Text :=
  (Text.percentEncode (fun c => Text.isUnreserved c || c == ' ') t).map fun c => if c = ' ' then '+' else c

/-- The pairs of a query in order. A pair without an equals sign has the empty value; empty pairs do not count. -/
def pairs (query : Text) : List (Text × Text) :=
  ((Text.splitOn '&' (Text.dropLeading '?' query)).filter (!·.isEmpty)).map fun pair =>
    let (name, value) := Text.cut '=' pair
    (decode name, decode (value.getD []))

/-- Whether a text is a pair of brackets with nothing but digits in it; a newline may follow. -/
def isBracket : Text → Bool
  | '[' :: rest =>
    match rest.dropWhile Text.isDecimal with
    | [']'] => true
    | [']', '\n'] => true
    | _ => false
  | _ => false

/-- The name before the brackets of a bracketed name: the shortest one, of one line and not empty. -/
def bracketBase : Text → Option Text
  | [] => none
  | c :: rest =>
    if c = '\n' then none
    else if isBracket rest then some [c]
    else (bracketBase rest).map (c :: ·)

/-- The mapping with one more value of a name. `listed` says that the name was written with brackets. -/
def add (m : Mapping Value) (name : Text) (listed : Bool) (value : Text) : Mapping Value :=
  match m.get? name with
  | none => m.put name (if listed then .list [.str value] else .str value)
  | some (.list items) => m.put name (.list (items ++ [.str value]))
  | some v => m.put name (.list [v, .str value])

/-- The mapping with the value of one pair. -/
def addPair (m : Mapping Value) (pair : Text × Text) : Mapping Value :=
  match bracketBase pair.1 with
  | some base => add m base true pair.2
  | none => add m pair.1 false pair.2

/-- The values of a query by name, in the order of their first occurrences. -/
def parse (query : Text) : Mapping Value := (pairs query).foldl addPair .empty

/-- The pairs that a mapping is written as. Null is not written, a list item by item. -/
def toPairs (m : Mapping Value) : List (Text × Text) :=
  m.entries.flatMap fun (name, value) =>
    match value with
    | .null => []
    | .list items => items.map fun item => (name ++ ['[', ']'], item.text)
    | v => [(name, v.text)]

/-- The query that gives a mapping, without a question mark. -/
def serialize (m : Mapping Value) : Text :=
  Text.join ['&'] ((toPairs m).map fun (name, value) => encode name ++ '=' :: encode value)

end Routing.Query
