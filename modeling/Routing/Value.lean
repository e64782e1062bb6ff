import Routing.Text.Quoted
import Routing.Value.Decimal

/-!
# Values

What a parameter, a data field or an entry of a route table may hold.

A value has two texts. `Value.shown` is the form inside lists and messages, in which texts stand between
quotes; `Value.text` is the form in which it enters a path or a query, where a text is itself.
-/

namespace Routing

/-- The number of integers of 64 bits that are not below 0: they range from its negative up to just below it. -/
def wordHalf : Int := 9223372036854775808

/-- The key of a field of an object: a value without parts. -/
inductive Key where
  | null
  | bool (b : Bool)
  | int (n : Int)
  | float (x : Decimal)
  | str (t : Text)
  deriving DecidableEq, Repr, Inhabited

/-- The key as it is shown in an object. -/
def Key.shown : Key → Text
  | null => "None".toList
  | bool true => "True".toList
  | bool false => "False".toList
  | int n => Text.ofInt n
  | float x => x.text
  | str t => Text.quoted t

/-- A value of a parameter. The fields of an object are in the order in which they were written. -/
inductive Value where
  | null
  | bool (b : Bool)
  | int (n : Int)
  | float (x : Decimal)
  | str (t : Text)
  | list (items : List Value)
  | object (fields : List (Key × Value))
  deriving BEq, Repr, Inhabited

namespace Value

mutual

/-- The value as it is shown inside a list. -/
def shown : Value → Text
  | null => "None".toList
  | bool true => "True".toList
  | bool false => "False".toList
  | int n => Text.ofInt n
  | float x => x.text
  | str t => Text.quoted t
  | list items => '[' :: shownItems items ++ [']']
  | object fields => '\x7b' :: shownFields fields ++ ['\x7d']

/-- The items of a list, between commas. -/
def shownItems : List Value → Text
  | [] => []
  | [v] => shown v
  | v :: w :: rest => shown v ++ ", ".toList ++ shownItems (w :: rest)

/-- The fields of an object, between commas. -/
def shownFields : List (Key × Value) → Text
  | [] => []
  | [(k, v)] => k.shown ++ ": ".toList ++ shown v
  | (k, v) :: f :: rest => k.shown ++ ": ".toList ++ shown v ++ ", ".toList ++ shownFields (f :: rest)

end

/-- The value as it enters a path, a query or a comparison. -/
def text : Value → Text
  | str t => t
  | v => shown v

@[simp] theorem text_str (t : Text) : (str t).text = t := rfl

/-- An object whose keys are texts. -/
def ofEntries (entries : List (Text × Value)) : Value := object (entries.map fun (k, v) => (.str k, v))

/-- Whether the value is `null`, which stands for no value at all. -/
def isNull : Value → Bool
  | null => true
  | _ => false

/-- Whether the value counts as given: neither null, nor false, nor zero, nor empty. -/
def isTruthy : Value → Bool
  | null => false
  | bool b => b
  | int n => n != 0
  | float x => x.digits != 0
  | str t => !t.isEmpty
  | list items => !items.isEmpty
  | object fields => !fields.isEmpty

/-- The values that a repeated part takes: the items of a list, one value by itself, none for `null`. -/
def items : Value → List Value
  | null => []
  | list vs => vs
  | v => [v]

/-- The parts that one place of a path is written from: the items of a list, else the value itself. -/
def parts : Value → List Value
  | list vs => vs
  | v => [v]

end Value

end Routing
