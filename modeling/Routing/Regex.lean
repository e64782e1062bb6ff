import Routing.Text
import Routing.Text.Blank
import Routing.Text.Digit
import Routing.Text.Fold
import Routing.Text.Word

/-!
# Regular expressions

The expressions that captures are written in. Beyond the regular operators an expression may capture what a part
of it matched, refer back to a capture, look ahead, anchor itself and forbid backtracking into a part.

An expression denotes the ordered list of ways in which it can match at a place; see `Routing.Regex.Match`.
-/

namespace Routing

namespace Regex

/-- The classes of characters that have a letter of their own. -/
inductive Category where
  | digit
  | blank
  | word
  deriving DecidableEq, Repr

/-- One part of a character set. -/
inductive ClassItem where
  | range (first last : Nat)
  | category (kind : Category) (complement : Bool)
  deriving DecidableEq, Repr

/-- A set of characters: those that an item holds, or, `complement`, those that none holds. With `anyCase` a range
holds a character also when it holds one that differs from it by case only. -/
structure CharSet where
  items : List ClassItem
  complement : Bool := false
  anyCase : Bool := false
  deriving DecidableEq, Repr

/-- The places that an anchor holds at. -/
inductive Anchor where
  /-- The start of the text. -/
  | start
  /-- The end of the text, or the place before a newline that ends it. -/
  | finish
  /-- The very end of the text. -/
  | textEnd
  /-- The start of a line. -/
  | lineStart
  /-- The end of a line. -/
  | lineEnd
  /-- Between a word character and one that is none. -/
  | wordEdge
  /-- Any other place of a text that is not empty. -/
  | notWordEdge
  deriving DecidableEq, Repr

end Regex

open Regex in
/-- A regular expression. -/
inductive Regex where
  /-- Matches nothing but the empty text. -/
  | empty
  /-- One character of a set. -/
  | oneOf (set : CharSet)
  | seq (first second : Regex)
  /-- Either one, the first one by preference. -/
  | alt (first second : Regex)
  /-- What `body` matches, kept as capture `index`. -/
  | capture (index : Nat) (body : Regex)
  /-- `body` at least `least` and at most `most` times, as often as possible or, `reluctant`, as seldom. -/
  | loop (body : Regex) (least : Nat) (most : Option Nat) (reluctant : Bool)
  /-- `body` at least `least` and at most `most` times, where no round that is done is taken back. `nested` tells
  whether it stands inside of a `loop`. See `Routing.Regex.Possessive`. -/
  | possessive (body : Regex) (least : Nat) (most : Option Nat) (nested : Bool)
  /-- `body` in its first way only. -/
  | atomic (body : Regex)
  /-- The empty text where `body` matches or, not `wanted`, does not. -/
  | look (wanted : Bool) (body : Regex)
  /-- The text of a capture. -/
  | backref (index : Nat) (anyCase : Bool)
  /-- The empty text where an anchor holds. -/
  | anchor (place : Anchor)
  deriving DecidableEq, Repr

namespace Regex

/-- Whether a character is of a category. -/
def Category.holds : Category → Char → Bool
  | digit => Text.isDecimal
  | blank => Text.isBlank
  | word => Text.isWord

/-- Whether an item of a set holds a code point. -/
def ClassItem.holds (n : Nat) : ClassItem → Bool
  | range first last => first ≤ n && n ≤ last
  | category kind complement => kind.holds (Char.ofNat n) != complement

/-- Whether a character beyond the first plane stands with others, in which case it is held against the lower case
form only: its upper case form is never found. -/
def ClassItem.isLowerOnly (items : List ClassItem) : ClassItem → Bool
  | range first last => first == last && 0xFFFF < first && items.length != 1
  | category _ _ => false

/-- Whether one of the items of a set holds a code point or, if it is a range, one of its case variants. -/
def ClassItem.holdsAnyCase (items : List ClassItem) (n : Nat) (variants : List Nat) (item : ClassItem) : Bool :=
  match item with
  | range _ _ => if item.isLowerOnly items then item.holds (Text.lower n) else variants.any item.holds
  | category _ _ => item.holds n

/-- Whether an item of the set holds a code point. -/
def CharSet.lists (set : CharSet) (n : Nat) : Bool :=
  if set.anyCase then
    let variants := Text.caseVariants n
    set.items.any (·.holdsAnyCase set.items n variants)
  else set.items.any (·.holds n)

/-- Whether the set holds a character. -/
def CharSet.holds (set : CharSet) (c : Char) : Bool := set.lists c.toNat != set.complement

/-- The set of one character. -/
def CharSet.single (c : Char) (anyCase : Bool) : CharSet := ⟨[.range c.toNat c.toNat], false, anyCase⟩

/-- The set of all characters but the newline. -/
def CharSet.noNewline : CharSet := ⟨[.range 10 10], true, false⟩

/-- The set of all characters. -/
def CharSet.all : CharSet := ⟨[], true, false⟩

/-- One expression after the other. -/
def seqAll (parts : List Regex) : Regex := parts.foldr seq empty

/-- The first of several alternatives by preference. -/
def altAll : List Regex → Regex
  | [] => empty
  | [r] => r
  | r :: s :: rest => alt r (altAll (s :: rest))

/-- The parts of a sequence, none of which is empty or a sequence. -/
def parts : Regex → List Regex
  | empty => []
  | seq first second => first.parts ++ second.parts
  | r => [r]

/-- The set of an expression that matches one character whatever follows. -/
def unit? (r : Regex) : Option CharSet :=
  match r.parts with
  | [oneOf set] => some set
  | _ => none

/-- The expression as the body of a `loop`. -/
def nest : Regex → Regex
  | empty => empty
  | oneOf set => oneOf set
  | seq first second => seq first.nest second.nest
  | alt first second => alt first.nest second.nest
  | capture index body => capture index body.nest
  | loop body least most reluctant => loop body.nest least most reluctant
  | possessive body least most _ => possessive body least most true
  | atomic body => atomic body.nest
  | look wanted body => look wanted body.nest
  | backref index anyCase => backref index anyCase
  | anchor place => anchor place

/-- How many captures an expression has. -/
def captureCount : Regex → Nat
  | empty => 0
  | oneOf _ => 0
  | seq first second => first.captureCount + second.captureCount
  | alt first second => first.captureCount + second.captureCount
  | capture _ body => body.captureCount + 1
  | loop body _ _ _ => body.captureCount
  | possessive body _ _ _ => body.captureCount
  | atomic body => body.captureCount
  | look _ body => body.captureCount
  | backref _ _ => 0
  | anchor _ => 0

end Regex

end Routing
