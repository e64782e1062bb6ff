import Routing.Value

/-!
# The order of keys

Numbers and truth values have an order, and so have texts, but a key of one kind has none with a key of another.
`sortByKey` puts fields in order, unless it has to compare two keys that have none: it then tells which they were.
Hence the comparisons that it makes are part of what it does. It takes the run that starts the list, upwards or
downwards, and puts every other field into it by halving.
-/

namespace Routing

/-- Two keys of which neither comes first, in the order in which they were compared. -/
structure Unordered where
  first : Key
  second : Key
  deriving DecidableEq, Repr

namespace Key

/-- The word for the kind of a key. -/
def kind : Key → Text
  | null => "NoneType".toList
  | bool _ => "bool".toList
  | int _ => "int".toList
  | float _ => "float".toList
  | str _ => "str".toList

/-- The number that a key is, by its sign and its magnitude. A truth value is 0 or 1. -/
def number? : Key → Option (Bool × Ratio)
  | null => none
  | bool b => some (false, ⟨if b then 1 else 0, 1⟩)
  | int n => some (n < 0, ⟨n.natAbs, 1⟩)
  | float x => some (x.negative, x.magnitude)
  | str _ => none

/-- Whether a number is below another one. -/
def numberLess (a b : Bool × Ratio) : Bool :=
  match a.1, b.1 with
  | false, false => a.2.less b.2
  | true, true => b.2.less a.2
  | true, false => a.2.num != 0 || b.2.num != 0
  | false, true => false

/-- Whether a number is equal to another one. -/
def numberEqual (a b : Bool × Ratio) : Bool := !numberLess a b && !numberLess b a

/-- Whether two keys are the same. Numbers and truth values are if they are equal. -/
def same (a b : Key) : Bool :=
  match a.number?, b.number? with
  | some m, some n => numberEqual m n
  | _, _ => a == b

/-- Whether a key comes before another one. -/
def before (a b : Key) : Except Unordered Bool :=
  match a.number?, b.number?, a, b with
  | some m, some n, _, _ => .ok (numberLess m n)
  | _, _, .str s, .str t => .ok (!Text.precedes t s)
  | _, _, _, _ => .error ⟨a, b⟩

end Key

namespace Sorting

variable {α ε : Type}

/-- The items that go on in one direction from `last`, and those after them. -/
def run (less : α → α → Except ε Bool) (down : Bool) (last : α) : List α → Except ε (List α × List α)
  | [] => .ok ([], [])
  | a :: rest => do
    if (← less a last) == down then
      let (more, others) ← run less down a rest
      return (a :: more, others)
    else return ([], a :: rest)

/-- The position from `low` to `high` at which `a` belongs. -/
def position (less : α → α → Except ε Bool) (a : α) (sorted : List α) (low high : Nat) : Except ε Nat :=
  if low < high then
    let middle := (low + high) / 2
    match sorted[middle]? with
    | none => .ok low
    | some b => do
      if ← less a b then position less a sorted low middle else position less a sorted (middle + 1) high
  else .ok low
termination_by high - low

/-- A sorted list with one more item. -/
def insert (less : α → α → Except ε Bool) (sorted : List α) (a : α) : Except ε (List α) := do
  let n ← position less a sorted 0 sorted.length
  return sorted.take n ++ a :: sorted.drop n

/-- The items in order. -/
def sort (less : α → α → Except ε Bool) : List α → Except ε (List α)
  | [] => .ok []
  | [a] => .ok [a]
  | a :: b :: rest => do
    let down ← less b a
    let (more, others) ← run less down b rest
    others.foldlM (insert less) (if down then (a :: b :: more).reverse else a :: b :: more)

end Sorting

/-- Fields in the order of their keys. -/
def sortByKey {α : Type} (fields : List (Key × α)) : Except Unordered (List (Key × α)) :=
  Sorting.sort (fun a b => a.1.before b.1) fields

end Routing
