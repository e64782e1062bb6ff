import Routing.Regex

/-!
# Places in a text

A `Place` is what is behind and what is ahead in a text. A `Cursor` is a place together with the captures so far,
kept as their edges: the opening and the closing one. What a capture holds is the text between its last two edges.
-/

namespace Routing.Regex

/-- A place in a text. -/
structure Place where
  /-- What is behind, the nearest character first. -/
  behind : Text
  ahead : Text
  deriving DecidableEq, Repr

/-- One end of a capture, known by what is ahead of it. -/
structure Edge where
  index : Nat
  closing : Bool
  ahead : Text
  deriving DecidableEq, Repr

/-- A place in a text, with the edges of what was captured on the way to it, the last one first. -/
structure Cursor extends Place where
  captures : List Edge := []
  deriving DecidableEq, Repr

namespace Place

/-- The place past the next character. -/
def advance (p : Place) : Option (Char × Place) :=
  match p.ahead with
  | [] => none
  | c :: rest => some (c, ⟨c :: p.behind, rest⟩)

/-- The place past a text that is ahead. -/
def skip (p : Place) (t : Text) : Place := ⟨t.reverse ++ p.behind, p.ahead.drop t.length⟩

/-- Whether the next character is a word character. -/
def wordAhead (p : Place) : Bool := p.ahead.head?.any Text.isWord

/-- Whether the last character is a word character. -/
def wordBehind (p : Place) : Bool := p.behind.head?.any Text.isWord

end Place

namespace Cursor

/-- The start of a text. -/
def ofText (t : Text) : Cursor := ⟨⟨[], t⟩, []⟩

/-- The cursor at another place. -/
def moveTo (s : Cursor) (p : Place) : Cursor := { s with toPlace := p }

/-- The cursor with one more edge. -/
def mark (s : Cursor) (index : Nat) (closing : Bool) (p : Place) : Cursor :=
  { s with captures := ⟨index, closing, p.ahead⟩ :: s.captures }

/-- The cursor with one more capture, of the text between two places. -/
def enclose (s : Cursor) (index : Nat) (first last : Place) : Cursor :=
  (s.mark index false first).mark index true last

/-- What is ahead of the last edge of a capture on one of its sides. -/
def edge (s : Cursor) (index : Nat) (closing : Bool) : Option Text :=
  (s.captures.find? fun e => e.index == index && e.closing == closing).map Edge.ahead

/-- The text of a capture. One whose closing edge is before its opening one has none. -/
def captured (s : Cursor) (index : Nat) : Option Text :=
  match s.edge index false, s.edge index true with
  | some first, some last =>
    if last.length ≤ first.length then some (first.take (first.length - last.length)) else none
  | _, _ => none

/-- Whether the closing edge of a capture is before its opening one. -/
def isCrossed (s : Cursor) (index : Nat) : Bool :=
  match s.edge index false, s.edge index true with
  | some first, some last => first.length < last.length
  | _, _ => false

end Cursor

/-- Whether an anchor holds at a place. -/
def Anchor.holds (p : Place) : Anchor → Bool
  | start => p.behind.isEmpty
  | finish => p.ahead.isEmpty || p.ahead == ['\n']
  | textEnd => p.ahead.isEmpty
  | lineStart => p.behind.isEmpty || p.behind.head? == some '\n'
  | lineEnd => p.ahead.isEmpty || p.ahead.head? == some '\n'
  | wordEdge => p.wordBehind != p.wordAhead
  | notWordEdge => p.wordBehind == p.wordAhead && !(p.behind.isEmpty && p.ahead.isEmpty)

/-- Whether a text starts with another one. With `anyCase` their characters have the same lower case forms. -/
def startsWith (anyCase : Bool) : Text → Text → Bool
  | _, [] => true
  | [], _ :: _ => false
  | c :: rest, d :: t =>
    (c == d || (anyCase && Text.lower c.toNat == Text.lower d.toNat)) && startsWith anyCase rest t

/-- How often a loop may go round after its required rounds. Every round but the last moves on, so the length of
what is ahead bounds a loop that has no bound of its own. -/
def rounds (least : Nat) (most : Option Nat) (p : Place) : Nat :=
  match most with
  | none => p.ahead.length + 1
  | some m => m - least

end Routing.Regex
