import Routing.Value.Order

/-!
# Values as JSON

The JSON text of a value. The fields of an object are in the order of their keys, so equal mappings have one text,
and all characters beyond ASCII are escaped. A key that is no text is written as one, but takes its place by what it
is; an object has no JSON text if its keys have no order.
-/

namespace Routing.Value

/-- An escape with four hexadecimal digits. -/
def jsonUnit (n : Nat) : Text := '\\' :: 'u' :: Text.hexOf 4 n

/-- A character inside of a JSON string. One beyond the first plane is a pair of escapes. -/
def jsonChar (c : Char) : Text :=
  match c with
  | '"' => ['\\', '"']
  | '\\' => ['\\', '\\']
  | '\n' => ['\\', 'n']
  | '\r' => ['\\', 'r']
  | '\t' => ['\\', 't']
  | '\x08' => ['\\', 'b']
  | '\x0c' => ['\\', 'f']
  | c =>
    if ' ' ≤ c ∧ c ≤ '~' then [c]
    else if c.toNat < 0x10000 then jsonUnit c.toNat
    else
      let n := c.toNat - 0x10000
      jsonUnit (0xD800 + n / 0x400) ++ jsonUnit (0xDC00 + n % 0x400)

/-- A JSON string. -/
def jsonString (t : Text) : Text := '"' :: t.flatMap jsonChar ++ ['"']

/-- A number with a fractional part. -/
def jsonFloat (x : Decimal) : Text :=
  if x.isInfinite then (if x.negative then "-Infinity".toList else "Infinity".toList) else x.text

/-- A key as the name of a field. -/
def jsonName : Key → Text
  | .null => "null".toList
  | .bool true => "true".toList
  | .bool false => "false".toList
  | .int n => Text.ofInt n
  | .float x => jsonFloat x
  | .str t => t

/-- A JSON array, given the texts of its items. -/
def jsonArray (items : List (Except Unordered Text)) : Except Unordered Text := do
  let texts ← items.mapM id
  return '[' :: Text.join ", ".toList texts ++ [']']

/-- A JSON object, given the texts of its values. -/
def jsonObject (fields : List (Key × Except Unordered Text)) : Except Unordered Text := do
  let sorted ← sortByKey fields
  let texts ← sorted.mapM fun (k, v) => do return jsonString (jsonName k) ++ ": ".toList ++ (← v)
  return '\x7b' :: Text.join ", ".toList texts ++ ['\x7d']

mutual

/-- The JSON text of a value. -/
def json : Value → Except Unordered Text
  | null => .ok "null".toList
  | bool true => .ok "true".toList
  | bool false => .ok "false".toList
  | int n => .ok (Text.ofInt n)
  | float x => .ok (jsonFloat x)
  | str t => .ok (jsonString t)
  | list items => jsonArray (jsonItems items)
  | object fields => jsonObject (jsonFields fields)

/-- The JSON texts of some values. -/
def jsonItems : List Value → List (Except Unordered Text)
  | [] => []
  | v :: rest => v.json :: jsonItems rest

/-- Fields with the JSON texts of their values. -/
def jsonFields : List (Key × Value) → List (Key × Except Unordered Text)
  | [] => []
  | (k, v) :: rest => (k, v.json) :: jsonFields rest

end

end Routing.Value
