import Routing.Regex.Factor
import Routing.Regex.Lexeme

/-!
# Reading regular expressions

The lexemes of an expression are read from left to right with a stack of open parentheses. A frame of the stack
holds the finished alternatives and the items of the current one. Captures are numbered from 1 in the order of
their opening parentheses.

A text is refused when its lexemes are, when parentheses do not match, when a count follows nothing, an anchor or
another count or has its numbers in the wrong order, when a reference has no finished capture, when two captures
share a name, when flags for the whole expression do not come first, or when a count is too large. Of several faults
the first one is reported.
-/

namespace Routing.Regex

/-- Why a text is refused. -/
inductive ReadError where
  | malformed
  | countTooLarge
  deriving DecidableEq, Repr

/-- The least number that is too large for a count. -/
def countLimit : Nat := 4294967295

/-- What an item is to a count that follows it. -/
inductive Weight where
  | single
  | anchor
  | counted
  deriving DecidableEq, Repr

/-- An item of an alternative. -/
structure Item where
  regex : Regex
  weight : Weight
  deriving DecidableEq, Repr

/-- What a closing parenthesis makes of the alternatives in it. -/
inductive Closing where
  | whole
  | plain
  | capture (index : Nat)
  | atomic
  | look (wanted : Bool)
  deriving DecidableEq, Repr

/-- The inside of a parenthesis so far. The finished alternatives and the items of the current one are in
reverse order. -/
structure Frame where
  closing : Closing
  flags : Flags
  branches : List Regex := []
  items : List Item := []
  deriving DecidableEq, Repr

/-- The state of reading. -/
structure Reading where
  frame : Frame
  outer : List Frame := []
  /-- How many captures were opened. -/
  captures : Nat := 0
  names : List (Text × Nat) := []
  deriving DecidableEq, Repr

namespace Frame

/-- The current alternative. -/
def branch (f : Frame) : Regex := seqAll (f.items.reverse.map Item.regex)

/-- All alternatives. -/
def body (f : Frame) : Regex := altAll (f.branches.reverse ++ [f.branch])

/-- The expression that the parenthesis gives when it is closed. -/
def close (f : Frame) : Regex :=
  match f.closing with
  | .whole => f.body
  | .plain => f.body
  | .capture index => .capture index f.body
  | .atomic => .atomic f.body
  | .look wanted => .look wanted f.body

/-- The frame with one more item. -/
def push (f : Frame) (regex : Regex) (weight : Weight) : Frame := { f with items := ⟨regex, weight⟩ :: f.items }

end Frame

/-- An expression under a count. -/
def counted (body : Regex) (least : Nat) (most : Option Nat) : Manner → Regex
  | .greedy => .loop body.nest least most false
  | .reluctant => .loop body.nest least most true
  | .possessive => .possessive body.factor least most false

/-- The flags after turning some on and some off. -/
def Flags.change (f on off : Flags) : Flags where
  anyCase := (f.anyCase || on.anyCase) && !off.anyCase
  manyLines := (f.manyLines || on.manyLines) && !off.manyLines
  dotAll := (f.dotAll || on.dotAll) && !off.dotAll

namespace Reading

/-- Nothing is read yet. -/
def start : Reading := { frame := { closing := .whole, flags := {} } }

/-- The state with one more item. -/
def push (r : Reading) (regex : Regex) (weight : Weight) : Reading :=
  { r with frame := r.frame.push regex weight }

/-- The state inside of one more parenthesis. -/
def enter (r : Reading) (closing : Closing) (flags : Flags) : Reading :=
  { r with frame := { closing, flags }, outer := r.frame :: r.outer }

/-- Whether a capture is opened and not closed yet. -/
def isOpen (r : Reading) (index : Nat) : Bool :=
  (r.frame :: r.outer).any (·.closing == .capture index)

/-- A reference to a finished capture. -/
def refer (r : Reading) (index : Nat) : Option Reading :=
  if index ≤ r.captures ∧ !r.isOpen index then
    some (r.push (.backref index r.frame.flags.anyCase) .single)
  else none

/-- The state inside of a capturing parenthesis. -/
def enterCapture (r : Reading) (name : Option Text) : Option Reading :=
  let index := r.captures + 1
  let entered := { r.enter (.capture index) r.frame.flags with captures := index }
  match name with
  | none => some entered
  | some n => if (r.names.lookup n).isSome then none else some { entered with names := (n, index) :: r.names }

/-- The state after the parenthesis that is open is closed. -/
def leave (r : Reading) : Option Reading :=
  match r.outer with
  | [] => none
  | up :: others => some { r with frame := up.push r.frame.close .single, outer := others }

/-- The state with the last item under a count. -/
def count (r : Reading) (least : Nat) (most : Option Nat) (manner : Manner) : Except ReadError Reading :=
  if countLimit ≤ least ∨ most.any (countLimit ≤ ·) then .error .countTooLarge
  else if most.any (· < least) then .error .malformed
  else
    match r.frame.items with
    | ⟨regex, .single⟩ :: others =>
      .ok { r with frame := { r.frame with items := ⟨counted regex least most manner, .counted⟩ :: others } }
    | _ => .error .malformed

/-- The state that is there unless the text is malformed. -/
def wellFormed : Option Reading → Except ReadError Reading
  | some r => .ok r
  | none => .error .malformed

/-- The state after one more lexeme. -/
def step (r : Reading) : Lexeme → Except ReadError Reading
  | .point n => .ok (r.push (.oneOf ⟨[.range n n], false, r.frame.flags.anyCase⟩) .single)
  | .set items complement => .ok (r.push (.oneOf ⟨items, complement, r.frame.flags.anyCase⟩) .single)
  | .dot => .ok (r.push (.oneOf (if r.frame.flags.dotAll then .all else .noNewline)) .single)
  | .caret => .ok (r.push (.anchor (if r.frame.flags.manyLines then .lineStart else .start)) .anchor)
  | .dollar => .ok (r.push (.anchor (if r.frame.flags.manyLines then .lineEnd else .finish)) .anchor)
  | .anchor place => .ok (r.push (.anchor place) .anchor)
  | .backref index => wellFormed (r.refer index)
  | .namedRef name => wellFormed ((r.names.lookup name).bind r.refer)
  | .opening .plain => .ok (r.enter .plain r.frame.flags)
  | .opening (.capturing name) => wellFormed (r.enterCapture name)
  | .opening .atomic => .ok (r.enter .atomic r.frame.flags)
  | .opening (.look wanted) => .ok (r.enter (.look wanted) r.frame.flags)
  | .opening (.flagged on off) => .ok (r.enter .plain (r.frame.flags.change on off))
  | .closing => wellFormed r.leave
  | .bar =>
    .ok { r with frame := { r.frame with branches := r.frame.branch :: r.frame.branches, items := [] } }
  | .count least most manner => r.count least most manner
  | .flags on =>
    if r.outer.isEmpty && r.frame.branches.isEmpty && r.frame.items.isEmpty then
      .ok { r with frame := { r.frame with flags := r.frame.flags.change on {} } }
    else .error .malformed
  | .comment => .ok r
  | .broken => .error .malformed

/-- The state after a run of lexemes. -/
def steps (r : Reading) (lexemes : List Lexeme) : Except ReadError Reading := lexemes.foldlM step r

/-- The expression that was read, once no parenthesis is open. -/
def finish (r : Reading) : Except ReadError Regex :=
  if r.outer.isEmpty then .ok r.frame.close else .error .malformed

theorem steps_append (r : Reading) (a b : List Lexeme) : r.steps (a ++ b) = (r.steps a).bind (·.steps b) := by
  simp only [steps, List.foldlM_append]
  rfl

end Reading

/-- The expression that a text writes. -/
def read (t : Text) : Except ReadError Regex := do
  let reading ← Reading.start.steps (Lexeme.all t)
  reading.finish

end Routing.Regex
