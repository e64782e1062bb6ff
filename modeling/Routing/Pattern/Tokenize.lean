import Routing.Pattern.Outline

/-!
# Tokenizing a pattern

The texts of an outline hold variables. A variable starts with a brace and a name of word characters, then either
ends, and takes the default capture, or has a colon and a capture up to the brace that matches the first one. A
brace that starts no variable is literal text.

The default capture is a run of characters other than the delimiter.
-/

namespace Routing.Pattern

/-! ### Captures -/

/-- The characters that a class of a regular expression has to escape, and others that an escape does no harm. -/
def classSpecials : List Char :=
  ['(', ')', '[', ']', '\x7b', '\x7d', '?', '*', '+', '-', '|', '^', '$', '\\', '.', '&', '~', '#', ' ', '\t', '\n',
    '\r', '\x0b', '\x0c']

/-- A text in which every character stands for itself, inside of a class too. -/
def classEscape (t : Text) : Text := t.flatMap fun c => if classSpecials.contains c then ['\\', c] else [c]

/-- The capture of a variable that is written without one. -/
def defaultCapture (delimiter : Text) : Text := '[' :: '^' :: classEscape delimiter ++ [']', '+']

/-! ### Variables -/

/-- The text before the brace that closes `depth` opened ones and one more, and the text after it. -/
def closingBrace (depth : Nat) : Text → Option (Text × Text)
  | [] => none
  | c :: rest =>
    if c = '\x7d' ∧ depth = 0 then some ([], rest)
    else
      let next := if c = '\x7d' then depth - 1 else if c = '\x7b' then depth + 1 else depth
      (closingBrace next rest).map fun (inside, after) => (c :: inside, after)

/-- What is read from a position on. A negative one counts from the end of the text, and after the end the text is
read once more from its start. -/
def readFrom (text : Text) : Int → Except RouteError Text
  | .ofNat n => .ok (text.drop n)
  | .negSucc n => if n < text.length then .ok (text.drop (text.length - (n + 1)) ++ text) else .error .outsideText

/-- The position of the brace that closes one opened at `start`, whatever stands there. -/
def matchingBrace (text : Text) (start : Int) : Except RouteError (Option Int) := do
  let t ← readFrom text (start + 1)
  return (closingBrace 0 t).map fun (inside, _) => start + 1 + inside.length

theorem length_closingBrace {depth : Nat} {t inside after : Text} (h : closingBrace depth t = some (inside, after)) :
    after.length < t.length := by
  induction t generalizing depth inside after with
  | nil => simp [closingBrace] at h
  | cons c rest ih =>
    rw [closingBrace] at h
    split at h
    · simp only [Option.some.injEq, Prod.mk.injEq] at h
      simp [h.2]
    · obtain ⟨⟨i, a⟩, hr, he⟩ := Option.map_eq_some_iff.1 h
      simp only [Prod.mk.injEq] at he
      have := ih hr
      rw [← he.2, List.length_cons]
      omega

/-- The variable that is written after an opening brace: its name, its capture, and the text after it. -/
def variableAt (default : Text) (t : Text) : Option (Text × Text × Text) :=
  let name := t.takeWhile Text.isWord
  if name.isEmpty then none
  else
    match t.dropWhile Text.isWord with
    | '\x7d' :: after => some (name, default, after)
    | ':' :: more =>
      (closingBrace 0 more).map fun (capture, after) => (name, if capture.isEmpty then default else capture, after)
    | _ => none

theorem length_variableAt {default t name capture after : Text}
    (h : variableAt default t = some (name, capture, after)) : after.length < t.length := by
  have hd : (t.dropWhile Text.isWord).length ≤ t.length := (List.dropWhile_sublist _).length_le
  simp only [variableAt] at h
  split at h
  · simp at h
  · split at h
    · next he =>
      simp only [Option.some.injEq, Prod.mk.injEq] at h
      rw [he, List.length_cons] at hd
      rw [← h.2.2]
      omega
    · next he =>
      obtain ⟨⟨i, a⟩, hr, hp⟩ := Option.map_eq_some_iff.1 h
      simp only [Prod.mk.injEq] at hp
      have := length_closingBrace hr
      rw [he, List.length_cons] at hd
      rw [← hp.2.2]
      omega
    · simp at h

/-- The literal token of a text in reverse order, or none for the empty text. -/
def literalOf (reversed : Text) : List Token :=
  if reversed.isEmpty then [] else [.literal reversed.reverse]

/-- The tokens of a text without groups, after the literal text read so far, which is in reverse order. -/
def runTokens (default : Text) (literal : Text) (t : Text) : List Token :=
  match t with
  | [] => literalOf literal
  | c :: rest =>
    if c = '\x7b' then
      match _h : variableAt default rest with
      | some (name, capture, after) =>
        literalOf literal ++ .variable name capture :: runTokens default [] after
      | none => runTokens default (c :: literal) rest
    else runTokens default (c :: literal) rest
termination_by t.length
decreasing_by
  · have := length_variableAt _h
    simp only [List.length_cons]
    omega
  · simp
  · simp

/-! ### Trees -/

/-- The last variable among some tokens that hold no group. -/
def lastVariable : List Token → Option Text
  | [] => none
  | .variable name _ :: rest => (lastVariable rest).or (some name)
  | _ :: rest => lastVariable rest

mutual

/-- The tokens of a piece, and its last variable. -/
def partTokens (default : Text) : Part → List Token × Option Text
  | .text t =>
    let tokens := runTokens default [] t
    (tokens, lastVariable tokens)
  | .group raw parts suffix =>
    let (children, last) := partsTokens default parts
    ([.group suffix (if suffix.repeats then last else none) raw children], last)

/-- The tokens of the pieces of an outline, and their last variable. -/
def partsTokens (default : Text) : List Part → List Token × Option Text
  | [] => ([], none)
  | p :: rest =>
    let (tokens, last) := partTokens default p
    let (others, lastOther) := partsTokens default rest
    (tokens ++ others, lastOther.or last)

end

/-- The token tree of a pattern, with `delimiter` for the captures that are not written. -/
def tokenize (delimiter pattern : Text) : Except PatternError Tokenized := do
  let parts ← Part.outline pattern
  return ⟨pattern, (partsTokens (defaultCapture delimiter) parts).1⟩

end Routing.Pattern
