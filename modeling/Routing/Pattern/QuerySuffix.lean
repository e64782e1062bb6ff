import Routing.Text
import Routing.Text.Word

/-!
# Query suffixes

A pattern may end with the query variables of its route: `?{a}&{b}`. A newline may follow the suffix.
The suffix is the longest one, that is the one that starts first.
-/

namespace Routing.Pattern

/-- The names that a query suffix declares, given what is after its question mark. -/
def suffixNames (t : Text) : Option (List Text) :=
  match t with
  | '\x7b' :: rest =>
    let name := rest.takeWhile Text.isWord
    if name.isEmpty then none
    else
      match _h : rest.dropWhile Text.isWord with
      | ['\x7d'] => some [name]
      | ['\x7d', '\n'] => some [name]
      | '\x7d' :: '&' :: more => (suffixNames more).map (name :: ·)
      | _ => none
  | _ => none
termination_by t.length
decreasing_by
  have hd : (rest.dropWhile Text.isWord).length ≤ rest.length := (List.dropWhile_sublist _).length_le
  rw [_h] at hd
  simp only [List.length_cons] at hd ⊢
  omega

/-- The pattern without its query suffix, and the names that the suffix declares. -/
def splitSuffix : Text → Text × List Text
  | [] => ([], [])
  | c :: rest =>
    match if c = '?' then suffixNames rest else none with
    | some names => ([], names)
    | none => (c :: (splitSuffix rest).1, (splitSuffix rest).2)

/-- The suffix that declares some query variables; nothing where there is none. -/
def writeSuffix (names : List Text) : Text :=
  if names.isEmpty then []
  else '?' :: Text.join ['&'] (names.map fun name => '\x7b' :: name ++ ['\x7d'])

end Routing.Pattern
