import Routing.Text

/-!
# Decimal forms of binary numbers

A number with a fractional part is held as a binary number of 53 bits. It is shown by the shortest decimal that
reads back as it, the nearest one where several are shortest, and that decimal is what this module stores.

`Decimal.nearest` reads a decimal numeral, rounds it to the nearest binary number (a tie goes to the even one)
and finds the shortest decimal of the result, all in exact arithmetic. `Decimal.text` writes it: with a decimal
point from 10⁻⁴ up to 10¹⁶ and with an exponent beyond.
-/

namespace Routing

/-- The number `digits · 10 ^ exponent`, or its negative. -/
structure Decimal where
  negative : Bool
  digits : Nat
  exponent : Int
  deriving DecidableEq, Repr

/-- A positive number as a quotient. -/
structure Ratio where
  num : Nat
  den : Nat
  deriving DecidableEq, Repr

namespace Ratio

/-- The number `n · 2 ^ q`. -/
def ofBinary (n : Nat) (q : Int) : Ratio :=
  match q with
  | .ofNat k => ⟨n * Nat.pow 2 k, 1⟩
  | .negSucc k => ⟨n, Nat.pow 2 (k + 1)⟩

/-- The number `n · 10 ^ e`. -/
def ofDecimal (n : Nat) (e : Int) : Ratio :=
  match e with
  | .ofNat k => ⟨n * Nat.pow 10 k, 1⟩
  | .negSucc k => ⟨n, Nat.pow 10 (k + 1)⟩

/-- Whether one number is below another. -/
def less (a b : Ratio) : Bool := a.num * b.den < b.num * a.den

/-- The greatest natural number that is not above `a / b`. -/
def floorDiv (a b : Ratio) : Nat := (a.num * b.den) / (a.den * b.num)

/-- The sum of two numbers. -/
def add (a b : Ratio) : Ratio := ⟨a.num * b.den + b.num * a.den, a.den * b.den⟩

/-- The product of two numbers. -/
def mul (a b : Ratio) : Ratio := ⟨a.num * b.num, a.den * b.den⟩

/-- The natural number nearest to `a / b`, the even one of two. -/
def roundDiv (a b : Ratio) : Nat :=
  let num := a.num * b.den
  let den := a.den * b.num
  let low := num / den
  let rest := 2 * (num % den)
  if den < rest ∨ (rest = den ∧ low % 2 = 1) then low + 1 else low

/-- The place of the first digit: `p` with `10 ^ p ≤ a < 10 ^ (p + 1)`. -/
def magnitude (a : Ratio) : Int :=
  if a.den ≤ a.num then ((Nat.toDigits 10 (a.num / a.den)).length : Int) - 1
  else
    match (List.range 400).find? fun z => a.den ≤ a.num * Nat.pow 10 (z + 1) with
    | some z => -((z : Int) + 1)
    | none => 0

end Ratio

namespace Decimal

/-- The binary number `m · 2 ^ q` with `m < 2 ^ 53` that is nearest to a positive number. -/
def binary (a : Ratio) : Nat × Int :=
  let guess : Int := (a.num.log2 : Int) - a.den.log2 - 53
  let low := max guess (-1074)
  let q := if Nat.pow 2 53 ≤ Ratio.floorDiv a (.ofBinary 1 low) then low + 1 else low
  (Ratio.roundDiv a (.ofBinary 1 q), q)

/-- The lower end of the numbers that round to `m · 2 ^ q`. -/
def lowerEnd (m : Nat) (q : Int) : Ratio :=
  if m = Nat.pow 2 52 ∧ -1074 < q then .ofBinary (4 * m - 1) (q - 2) else .ofBinary (2 * m - 1) (q - 1)

/-- The upper end of the numbers that round to `m · 2 ^ q`. -/
def upperEnd (m : Nat) (q : Int) : Ratio := .ofBinary (2 * m + 1) (q - 1)

/-- Whether a number rounds to `m · 2 ^ q`; the ends of the range do so when `m` is even. -/
def roundsTo (m : Nat) (q : Int) (a : Ratio) : Bool :=
  if m % 2 = 0 then !a.less (lowerEnd m q) && !(upperEnd m q).less a
  else (lowerEnd m q).less a && a.less (upperEnd m q)

/-- The decimal with `count` digits nearest to `m · 2 ^ q`, if a decimal with so few digits rounds to it. -/
def withDigits (m : Nat) (q : Int) (count : Nat) : Option (Nat × Int) :=
  let value := Ratio.ofBinary m q
  let place := value.magnitude - (count : Int) + 1
  let unit := Ratio.ofDecimal 1 place
  let below := Ratio.floorDiv value unit
  let nearest := Ratio.roundDiv value unit
  let other := if nearest = below then below + 1 else below
  ([nearest, other].find? fun n => roundsTo m q (.ofDecimal n place)).map fun n => (n, place)

/-- Digits and the place of the last one, with no zero at the end. -/
def trimZeros : Nat → Nat × Int → Nat × Int
  | 0, n => n
  | fuel + 1, (digits, place) => if digits % 10 = 0 then trimZeros fuel (digits / 10, place + 1) else (digits, place)

/-- The number that stands for all that are beyond the range of binary numbers. -/
def infinite (negative : Bool) : Decimal := ⟨negative, 1, 309⟩

/-- Whether a number is beyond the range of binary numbers. -/
def isInfinite (x : Decimal) : Bool := x.digits == 1 && x.exponent == 309

/-- The binary number nearest to a quotient, as a quotient. -/
def rounded (a : Ratio) : Ratio :=
  let (m, q) := binary a
  .ofBinary m q

/-- The shortest decimal of the binary number nearest to a quotient. -/
def ofRatio (negative : Bool) (a : Ratio) : Decimal :=
  if a.num = 0 then ⟨negative, 0, 0⟩
  else
    let (m, q) := binary a
    if m = 0 then ⟨negative, 0, 0⟩
    else if 1023 < (m.log2 : Int) + q then infinite negative
    else
      match (List.range 17).findSome? fun n => withDigits m q (n + 1) with
      | some found =>
        let (digits, exponent) := trimZeros 17 found
        ⟨negative, digits, exponent⟩
      | none => ⟨negative, m, 0⟩

/-- The shortest decimal of the binary number nearest to `digits · 10 ^ exponent`. A number with its first digit
beyond the place 400 is beyond the range, one with its first digit below the place -400 is as good as zero. -/
def nearest (negative : Bool) (digits : Nat) (exponent : Int) : Decimal :=
  let place := exponent + (Text.ofNat digits).length
  if digits = 0 ∨ place < -400 then ⟨negative, 0, 0⟩
  else if 400 < place then infinite negative
  else ofRatio negative (.ofDecimal digits exponent)

/-- The binary number that is shown, without its sign. -/
def magnitude (x : Decimal) : Ratio := rounded (.ofDecimal x.digits x.exponent)

/-- The integer that the number is equal to, if there is one. -/
def toInt? (x : Decimal) : Option Int :=
  if x.digits = 0 then some 0
  else
    let value := x.magnitude
    if value.num % value.den = 0 then
      some (if x.negative then -((value.num / value.den : Nat) : Int) else (value.num / value.den : Nat))
    else none

/-- The number as it is written: `1.5`, `100.0`, `0.0001`, `1e-05`, `1e+16`. -/
def text (x : Decimal) : Text :=
  let sign := if x.negative then ['-'] else []
  if x.digits = 0 then sign ++ ['0', '.', '0']
  else if x.isInfinite then sign ++ "inf".toList
  else
    let ds := Text.ofNat x.digits
    let place : Int := x.exponent + ds.length - 1
    if place < -4 ∨ 16 ≤ place then
      let head := ds.take 1
      let tail := ds.drop 1
      let size := Text.ofNat place.natAbs
      sign ++ head ++ (if tail.isEmpty then [] else '.' :: tail) ++ ['e', if place < 0 then '-' else '+'] ++
        (if size.length < 2 then '0' :: size else size)
    else if place < 0 then
      sign ++ ['0', '.'] ++ List.replicate (place.natAbs - 1) '0' ++ ds
    else
      let whole := place.toNat + 1
      let padded := ds ++ List.replicate (whole - ds.length) '0'
      let fraction := padded.drop whole
      sign ++ padded.take whole ++ '.' :: (if fraction.isEmpty then ['0'] else fraction)

end Decimal

end Routing
