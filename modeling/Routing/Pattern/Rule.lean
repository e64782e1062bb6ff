import Routing.Pattern.Tokenize

/-!
# Rules

A token tree becomes a regular expression and the list of its variables, one for each capture that the pattern
itself puts in. Literal text is escaped. A variable is a capture around its own expression. A group is an
uncaptured part under its suffix, but a repeated one with a variable is captured as a whole, since a capture keeps
its last round only: the run is split into values when a path is matched, by the pattern of the group. Inside of
such a group nothing else is captured.
-/

namespace Routing.Pattern

/-- A variable of a rule, with the pattern of the repeated group that it stands in. -/
structure Variable where
  name : Text
  repeated : Option Text := none
  deriving DecidableEq, Repr

/-- A regular expression and its variables in the order of their captures. -/
structure Rule where
  regex : Text := []
  vars : List Variable := []
  deriving DecidableEq, Repr, Inhabited

/-- The names of the variables of a rule. -/
def Rule.names (r : Rule) : List Text := r.vars.map Variable.name

/-- The characters that mean something in a regular expression. -/
def specials : List Char := ['|', '\\', '\x7b', '\x7d', '(', ')', '[', ']', '^', '$', '+', '*', '?', '.']

/-- The regular expression of a literal text. -/
def escape (t : Text) : Text := t.flatMap fun c => if specials.contains c then ['\\', c] else [c]

/-- The variables declared so far with more of them; none may occur twice. -/
def declare (declared : List Variable) : List Variable → Except PatternError (List Variable)
  | [] => .ok declared
  | v :: rest =>
    if (declared.map Variable.name).contains v.name then .error (.duplicate v.name)
    else declare (declared ++ [v]) rest

/-- An expression as one part. -/
def part (regex : Text) : Text := '(' :: '?' :: ':' :: regex ++ [')']

mutual

/-- The rule of one token. `inside` is the pattern of the repeated group around it. -/
def Token.rule (inside : Option Text) : Token → Except PatternError Rule
  | .literal text => .ok ⟨escape text, []⟩
  | .variable name capture =>
    match inside with
    | some raw => .ok ⟨capture, [⟨name, some raw⟩]⟩
    | none => .ok ⟨'(' :: capture ++ [')'], [⟨name, none⟩]⟩
  | .group suffix _ raw children =>
    if suffix.repeats then
      match inside with
      | none => do
        let r ← tokensRule (some raw) {} children
        if 1 < r.vars.length then .error (.cardinality raw)
        else
          let run := part r.regex ++ [suffix.symbol]
          .ok ⟨if r.vars.isEmpty then run else '(' :: run ++ [')'], r.vars⟩
      | some around => do
        let r ← tokensRule (some around) {} children
        .ok ⟨part r.regex ++ [suffix.symbol], r.vars⟩
    else do
      let r ← tokensRule inside {} children
      .ok ⟨part r.regex ++ ['?'], r.vars⟩

/-- The rule of a run of tokens after the rule of those before it. -/
def tokensRule (inside : Option Text) (before : Rule) : List Token → Except PatternError Rule
  | [] => .ok before
  | t :: rest => do
    let r ← t.rule inside
    let vars ← declare before.vars r.vars
    tokensRule inside ⟨before.regex ++ r.regex, vars⟩ rest

end

/-- The rule of a token tree. -/
def Tokenized.rule (t : Tokenized) : Except PatternError Rule := tokensRule none {} t.tokens

end Routing.Pattern
