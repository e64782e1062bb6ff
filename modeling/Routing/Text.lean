/-!
# Text

Patterns, locations, names and values are texts: lists of code points. Positions and lengths count code
points, so the list is the type, and every scanner of the library is a recursion on it.

The functions here cut texts at one character and put the pieces together again.
-/

namespace Routing

/-- A text is its list of code points. -/
abbrev Text := List Char

namespace Text

/-- The pieces between the occurrences of `sep`; there is always at least one. -/
def splitOn (sep : Char) : Text → List Text
  | [] => [[]]
  | c :: rest =>
    if c = sep then [] :: splitOn sep rest
    else
      match splitOn sep rest with
      | [] => [[c]]
      | piece :: pieces => (c :: piece) :: pieces

theorem splitOn_ne_nil (sep : Char) (t : Text) : splitOn sep t ≠ [] := by
  cases t with
  | nil => simp [splitOn]
  | cons c rest =>
    rw [splitOn]
    split
    · simp
    · split <;> simp

/-- The pieces put side by side, with `sep` between them. -/
def join (sep : Text) (pieces : List Text) : Text := List.intercalate sep pieces

/-- Cutting at a character and joining with it gives the text back. -/
theorem join_splitOn (sep : Char) (t : Text) : join [sep] (splitOn sep t) = t := by
  induction t with
  | nil => rfl
  | cons c rest ih =>
    rw [splitOn]
    split
    · next h =>
      subst h
      cases hs : splitOn c rest with
      | nil => exact absurd hs (splitOn_ne_nil c rest)
      | cons piece pieces =>
        rw [hs] at ih
        simp only [join, List.intercalate, List.intersperse, List.flatten_cons, List.nil_append,
          List.cons_append] at ih ⊢
        rw [ih]
    · cases hs : splitOn sep rest with
      | nil => exact absurd hs (splitOn_ne_nil sep rest)
      | cons piece pieces =>
        rw [hs] at ih
        cases pieces with
        | nil => simpa [join, List.intercalate] using ih
        | cons second others =>
          simpa [join, List.intercalate, List.intersperse] using ih

/-- The part before the first `sep` and, where there is one, the part after it. -/
def cut (sep : Char) : Text → Text × Option Text
  | [] => ([], none)
  | c :: rest =>
    if c = sep then ([], some rest)
    else ((c :: (cut sep rest).1), (cut sep rest).2)

/-- The text without the run of `c` that it starts with. -/
def dropLeading (c : Char) (t : Text) : Text := t.dropWhile (· == c)

/-- The text without the run of `c` that it ends with. -/
def dropTrailing (c : Char) (t : Text) : Text := (dropLeading c t.reverse).reverse

/-- The text without the runs of `c` at both of its ends. -/
def strip (c : Char) (t : Text) : Text := dropTrailing c (dropLeading c t)

/-- The decimal digits of a natural number. -/
def ofNat (n : Nat) : Text := Nat.toDigits 10 n

/-- The decimal digits of an integer, after a minus sign where it is negative. -/
def ofInt : Int → Text
  | .ofNat n => ofNat n
  | .negSucc n => '-' :: ofNat (n + 1)

/-- The number that a list of decimal digits writes, or `none` where a character is not one or there is none. -/
def toNat? (t : Text) : Option Nat :=
  if t.isEmpty || t.any (fun c => !c.isDigit) then none
  else some (t.foldl (fun n c => 10 * n + (c.toNat - 48)) 0)

/-- The text filled up on its right to `width` characters. -/
def padRight (width : Nat) (t : Text) : Text := t ++ List.replicate (width - t.length) ' '

/-- Whether a text comes before another in the order of code points, or is the same. -/
def precedes : Text → Text → Bool
  | [], _ => true
  | _ :: _, [] => false
  | c :: s, d :: t => c.toNat < d.toNat || (c == d && precedes s t)

/-- The value of a hexadecimal digit. -/
def hexValue? (c : Char) : Option Nat :=
  if '0' ≤ c ∧ c ≤ '9' then some (c.toNat - 48)
  else if 'a' ≤ c ∧ c ≤ 'f' then some (c.toNat - 87)
  else if 'A' ≤ c ∧ c ≤ 'F' then some (c.toNat - 55)
  else none

/-- The number that hexadecimal digits write, most significant first. -/
def hexNat? : Text → Option Nat
  | [] => none
  | t => t.foldl (fun acc c => do return 16 * (← acc) + (← hexValue? c)) (some 0)

/-- The hexadecimal digits of `n`, in lower case, filled up with zeros to `width`. -/
def hexOf (width n : Nat) : Text :=
  let digits := Nat.toDigits 16 n
  List.replicate (width - digits.length) '0' ++ digits

end Text

end Routing
