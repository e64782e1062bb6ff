import Routing.Value.Order

/-!
# Documents

The data that a route table is written in: scalars, sequences and mappings whose keys may be any scalar. A key that
is set twice keeps its first place and has its last value.

A `Node` is a document as it is written, in which it is known of a scalar only whether it stands in quotes. What a
scalar without quotes is, is said in `Routing.Document.Scalar`.
-/

namespace Routing

/-- A document as it is written. -/
inductive Node where
  | plain (t : Text)
  | quoted (t : Text)
  | seq (items : List Node)
  | map (fields : List (Node × Node))
  deriving Repr, Inhabited

/-- Where no value is written. -/
def Node.blank : Node := plain []

/-- Whether a node is a scalar, which may be a key. -/
def Node.isScalar : Node → Bool
  | plain _ | quoted _ => true
  | seq _ | map _ => false

/-- A piece of data. -/
inductive Document where
  | scalar (k : Key)
  | seq (items : List Document)
  | map (fields : List (Key × Document))
  deriving Repr, Inhabited

namespace Document

/-- A text. -/
@[match_pattern] abbrev str (t : Text) : Document := scalar (.str t)

/-- No data. -/
@[match_pattern] abbrev null : Document := scalar .null

/-- The fields of a mapping after setting one more. -/
def setField (key : Key) (value : Document) : List (Key × Document) → List (Key × Document)
  | [] => [(key, value)]
  | (k, v) :: rest => if k.same key then (k, value) :: rest else (k, v) :: setField key value rest

/-- The mapping of some fields in the order in which they are set. -/
def ofFields (fields : List (Key × Document)) : Document :=
  map (fields.foldl (fun done (k, v) => setField k v done) [])

/-- The value of a text key. -/
def field (name : Text) (fields : List (Key × Document)) : Option Document := fields.lookup (.str name)

/-- A scalar as a value. -/
def ofKey : Key → Value
  | .null => .null
  | .bool b => .bool b
  | .int n => .int n
  | .float x => .float x
  | .str t => .str t

mutual

/-- The document as a value. -/
def toValue : Document → Value
  | scalar k => ofKey k
  | seq items => .list (toValues items)
  | map fields => .object (toFields fields)

/-- Documents as values. -/
def toValues : List Document → List Value
  | [] => []
  | d :: rest => d.toValue :: toValues rest

/-- The fields of a mapping as values. -/
def toFields : List (Key × Document) → List (Key × Value)
  | [] => []
  | (k, v) :: rest => (k, v.toValue) :: toFields rest

end

end Document

end Routing
