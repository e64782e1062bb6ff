import Routing.Text.Word
import Routing.Text

/-!
# Tokens of a pattern

A pattern is written with literal text, variables `{name}` or `{name:capture}`, and groups in brackets: `[…]` may
be absent, `[…]*` may be absent or repeated, `[…]+` is there once or more often.

A token tree is what a pattern says. `Token.names` lists its variables from left to right.
-/

namespace Routing.Pattern

/-- How often a group may occur. -/
inductive Suffix where
  /-- Once or not at all; written without a suffix. -/
  | optional
  /-- Any number of times. -/
  | star
  /-- At least once. -/
  | plus
  deriving DecidableEq, Repr

namespace Suffix

/-- The operator of regular expressions for the same number of times. -/
def symbol : Suffix → Char
  | optional => '?'
  | star => '*'
  | plus => '+'

/-- What is written after the closing bracket. -/
def written : Suffix → Text
  | optional => []
  | star => ['*']
  | plus => ['+']

/-- Whether the group may be absent. -/
def mayBeAbsent : Suffix → Bool
  | optional => true
  | star => true
  | plus => false

/-- Whether the group may occur more than once. -/
def repeats : Suffix → Bool
  | optional => false
  | star => true
  | plus => true

end Suffix

/-- A node of a token tree. -/
inductive Token where
  /-- Text that stands for itself. -/
  | literal (text : Text)
  /-- A variable and the regular expression of its values. -/
  | variable (name capture : Text)
  /-- A group: how often it occurs, the variable that a repeated one takes its values from, the pattern between
  its brackets as it was written, and the tokens of that pattern. -/
  | group (suffix : Suffix) (binds : Option Text) (raw : Text) (children : List Token)
  deriving Repr, Inhabited

/-- A pattern as it was written, and its tokens. -/
structure Tokenized where
  source : Text
  tokens : List Token
  deriving Repr, Inhabited

mutual

/-- The variables of a token, from left to right. -/
def Token.names : Token → List Text
  | .literal _ => []
  | .variable name _ => [name]
  | .group _ _ _ children => namesOf children

/-- The variables of a run of tokens, from left to right. -/
def namesOf : List Token → List Text
  | [] => []
  | t :: rest => t.names ++ namesOf rest

end

end Routing.Pattern
