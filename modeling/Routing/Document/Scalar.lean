import Routing.Document

/-!
# Scalars

A scalar without quotes is null, a truth value or a number where it is written like one, and a text otherwise.
Truth values are written with the words true, yes and on, in lower case, upper case or capitalised. Integers may be
binary, octal (with a leading zero), decimal, hexadecimal, or in base 60 with colons; a number with a point is
decimal, or in base 60 with its last place decimal. Underscores between digits do not count, so a binary or
hexadecimal integer may turn out to have no digits at all, which is an error.

`Document.ofNode` gives the document that a node writes.
-/

namespace Routing.Document

/-- A text without its sign, and whether the sign was minus. -/
def dropSign : Text → Bool × Text
  | '-' :: rest => (true, rest)
  | '+' :: rest => (false, rest)
  | t => (false, t)

/-- A text without underscores. -/
def dropUnderscores (t : Text) : Text := t.filter (· != '_')

/-- The number that digits write in a base up to 16. -/
def digitsIn (base : Nat) (t : Text) : Nat := t.foldl (fun n c => base * n + (Text.hexValue? c).getD 0) 0

/-- Whether a text is made of characters that `p` holds of, and is not empty. -/
def isRun (p : Char → Bool) (t : Text) : Bool := !t.isEmpty && t.all p

/-- Whether a character is a digit or an underscore. -/
def isDigitLike (c : Char) : Bool := c.isDigit || c == '_'

/-- Whether a text is a place in base 60. -/
def isPlace : Text → Bool
  | [c] => c.isDigit
  | [c, d] => ('0' ≤ c && c ≤ '5') && d.isDigit
  | _ => false

/-- The integer in base 60 whose places colons separate, most significant first. -/
def sexagesimal (t : Text) : Option Nat :=
  match Text.splitOn ':' t with
  | first :: second :: rest =>
    let places := second :: rest
    if (first.head?.any fun c => '1' ≤ c && c ≤ '9') && first.all isDigitLike && places.all isPlace then
      some (places.foldl (fun n p => 60 * n + digitsIn 10 p) (digitsIn 10 (dropUnderscores first)))
    else none
  | _ => none

/-- Why a scalar cannot be read: it is written like an integer in a base, but without digits. -/
structure NoDigits where
  base : Nat
  deriving DecidableEq, Repr

/-- The number that digits with underscores write in a base, for which one digit is needed. -/
def digitsOf (base : Nat) (t : Text) : Except NoDigits Nat :=
  let digits := dropUnderscores t
  if digits.isEmpty then .error ⟨base⟩ else .ok (digitsIn base digits)

/-- The magnitude of an integer. -/
def magnitude : Text → Option (Except NoDigits Nat)
  | ['0'] => some (.ok 0)
  | '0' :: 'b' :: rest =>
    if isRun (fun c => c == '0' || c == '1' || c == '_') rest then some (digitsOf 2 rest) else none
  | '0' :: 'x' :: rest =>
    if isRun (fun c => (Text.hexValue? c).isSome || c == '_') rest then some (digitsOf 16 rest) else none
  | '0' :: rest =>
    if isRun (fun c => ('0' ≤ c && c ≤ '7') || c == '_') rest then
      some (.ok (digitsIn 8 (dropUnderscores rest)))
    else none
  | t =>
    if (t.head?.any Char.isDigit) && t.all isDigitLike then some (.ok (digitsIn 10 (dropUnderscores t)))
    else (sexagesimal t).map .ok

/-- The integer that a text writes. -/
def integer (t : Text) : Option (Except NoDigits Int) :=
  let (negative, rest) := dropSign t
  (magnitude rest).map fun n => n.map fun n => if negative then -(n : Int) else n

/-- The exponent that is written at the end of a number; a sign is required in it. -/
def exponent : Text → Option Int
  | [] => some 0
  | e :: sign :: digits =>
    if (e == 'e' || e == 'E') && isRun Char.isDigit digits then
      if sign = '+' then some (digitsIn 10 digits)
      else if sign = '-' then some (-(digitsIn 10 digits : Int))
      else none
    else none
  | _ => none

/-- The number with a point that a text writes. -/
def fractional (t : Text) : Option Decimal :=
  let (negative, rest) := dropSign t
  let whole := rest.takeWhile isDigitLike
  match rest.dropWhile isDigitLike with
  | '.' :: more =>
    let part := more.takeWhile isDigitLike
    let proper :=
      if whole.isEmpty then t.head? == some '.' && part.head?.any Char.isDigit else whole.head?.any Char.isDigit
    match if proper then exponent (more.dropWhile isDigitLike) else none with
    | some e =>
      let fraction := dropUnderscores part
      some (.nearest negative (digitsIn 10 (dropUnderscores whole ++ fraction)) (e - fraction.length))
    | none => none
  | _ => none

/-- A number in base 60 after one more place, which counts `unit`. -/
def addPlace (sum unit place : Ratio) : Ratio :=
  Decimal.rounded (sum.add (Decimal.rounded (place.mul (Decimal.rounded unit))))

/-- The sum of places in base 60, the least significant one first, of which it counts `unit`. Every step rounds. -/
def sumPlaces (sum : Ratio) (unit : Nat) : List Ratio → Ratio
  | [] => sum
  | place :: rest => sumPlaces (addPlace sum ⟨unit, 1⟩ place) (60 * unit) rest

/-- The number in base 60 with a point that a text writes. -/
def sexagesimalFraction (t : Text) : Option Decimal :=
  let (negative, rest) := dropSign t
  let (whole, part) := Text.cut '.' rest
  match Text.splitOn ':' whole, part with
  | first :: second :: places, some part =>
    if (first.head?.any Char.isDigit) && first.all isDigitLike && (second :: places).all isPlace &&
        part.all isDigitLike then
      let fraction := dropUnderscores part
      let wholes := (first :: second :: places).map fun p => digitsIn 10 (dropUnderscores p)
      match wholes.reverse with
      | last :: others =>
        let digits := last * Nat.pow 10 fraction.length + digitsIn 10 fraction
        let least := Decimal.rounded (Ratio.ofDecimal digits (-(fraction.length : Int)))
        some (.ofRatio negative (sumPlaces ⟨0, 1⟩ 1 (least :: others.map fun n => Decimal.rounded ⟨n, 1⟩)))
      | [] => none
    else none
  | _, _ => none

/-- The words for null. -/
def nullWords : List Text := ["", "~", "null", "Null", "NULL"].map String.toList

/-- The words for truth values. -/
def boolWords : List (Text × Bool) :=
  [("yes", true), ("Yes", true), ("YES", true), ("no", false), ("No", false), ("NO", false), ("true", true),
    ("True", true), ("TRUE", true), ("false", false), ("False", false), ("FALSE", false), ("on", true),
    ("On", true), ("ON", true), ("off", false), ("Off", false), ("OFF", false)].map
    fun (word, b) => (word.toList, b)

/-- What a scalar without quotes is. -/
def ofPlain (t : Text) : Except NoDigits Key :=
  if nullWords.contains t then .ok .null
  else
    match boolWords.lookup t, integer t, fractional t, sexagesimalFraction t with
    | some b, _, _, _ => .ok (.bool b)
    | _, some n, _, _ => n.map .int
    | _, _, some x, _ => .ok (.float x)
    | _, _, _, some x => .ok (.float x)
    | none, none, none, none => .ok (.str t)

/-- What a key is. -/
def ofKeyNode : Node → Except NoDigits Key
  | .plain t => ofPlain t
  | .quoted t => .ok (.str t)
  | .seq _ | .map _ => .ok .null

mutual

/-- The document that a node writes. -/
def ofNode : Node → Except NoDigits Document
  | .plain t => (ofPlain t).map scalar
  | .quoted t => .ok (str t)
  | .seq items => (ofNodes items).map seq
  | .map fields => (ofPairs fields).map ofFields

/-- The documents that nodes write. -/
def ofNodes : List Node → Except NoDigits (List Document)
  | [] => .ok []
  | n :: rest => do return (← ofNode n) :: (← ofNodes rest)

/-- The fields that pairs of nodes write. -/
def ofPairs : List (Node × Node) → Except NoDigits (List (Key × Document))
  | [] => .ok []
  | (k, v) :: rest => do return (← ofKeyNode k, ← ofNode v) :: (← ofPairs rest)

end

end Routing.Document
