import Routing.Error
import Routing.Pattern.Token

/-!
# Outline of a pattern

The brackets of a pattern cut it into groups, each with a pattern of its own, and the texts between them. A run
in braces, from an opening brace to the one that matches it or to the end of the pattern, hides the brackets in
it, so a capture may hold brackets.

`Part.outline` finds the groups in one pass, with a stack of those that are open. It refuses exactly the patterns
with a bracket that closes nothing or is not closed.
-/

namespace Routing.Pattern

/-- A piece of an outline: text outside of groups, or a group with the pattern between its brackets. -/
inductive Part where
  | text (t : Text)
  | group (raw : Text) (parts : List Part) (suffix : Suffix)
  deriving Repr, Inhabited

namespace Part

/-- The piece as it is written. -/
def source : Part → Text
  | text t => t
  | group raw _ suffix => '[' :: raw ++ ']' :: suffix.written

/-- The inside of an open bracket so far: the finished pieces and the text of the current one, both in reverse
order. -/
structure Open where
  parts : List Part := []
  buffer : Text := []

namespace Open

/-- The pieces in order, the current one being finished. -/
def pieces (o : Open) : List Part :=
  (if o.buffer.isEmpty then o.parts else .text o.buffer.reverse :: o.parts).reverse

/-- The state with one more character in the current piece. -/
def push (o : Open) (c : Char) : Open := { o with buffer := c :: o.buffer }

/-- The state with the current piece finished. -/
def rest (o : Open) : Open := ⟨o.pieces.reverse, []⟩

/-- The state with a finished group. -/
def add (o : Open) (inner : List Part) (suffix : Suffix) : Open :=
  ⟨.group (inner.flatMap source) inner suffix :: o.parts, []⟩

end Open

/-- The number of open braces after a character; it is counted from the first opening brace on. -/
def bracesAfter (braces : Nat) (c : Char) : Nat :=
  if c = '\x7b' then braces + 1 else if c = '\x7d' then braces - 1 else braces

/-- The suffix of a group, given what is after its bracket, and what is after the suffix. -/
def readSuffix : Text → Suffix × Text
  | '*' :: rest => (.star, rest)
  | '+' :: rest => (.plus, rest)
  | rest => (.optional, rest)

theorem length_readSuffix (t : Text) : (readSuffix t).2.length ≤ t.length := by
  unfold readSuffix
  split <;> simp

/-- The outline of what is left of a pattern, given the number of open braces, the innermost open bracket and
those around it. -/
def scan (braces : Nat) (inner : Open) (outer : List Open) (t : Text) : Option (List Part) :=
  match t with
  | [] => if outer.isEmpty then some inner.pieces else none
  | c :: rest =>
    if 0 < braces ∨ c = '\x7b' then scan (bracesAfter braces c) (inner.push c) outer rest
    else if c = '[' then scan 0 {} (inner.rest :: outer) rest
    else if c = ']' then
      match outer with
      | [] => none
      | around :: others =>
        scan 0 (around.add inner.pieces (readSuffix rest).1) others (readSuffix rest).2
    else scan 0 (inner.push c) outer rest
termination_by t.length
decreasing_by
  · simp
  · simp
  · exact Nat.lt_succ_of_le (length_readSuffix rest)
  · simp

/-- The pieces of a pattern. -/
def outline (pattern : Text) : Except PatternError (List Part) :=
  match scan 0 {} [] pattern with
  | some parts => .ok parts
  | none => .error (.unbalanced pattern)

end Part

end Routing.Pattern
