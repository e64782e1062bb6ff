import Routing.Text
import Routing.Text.Word

/-!
# Highlighting patterns

A pattern is cut into coloured pieces for a terminal. The cutting reads from left to right with a stack of modes:
text and groups, the capture of a variable, braces inside of a capture, and the query suffix, which lasts to the
end of the line. Each mode has a list of rules. The first rule whose shape the text starts with says what the pieces
are and which modes come after them. Where no rule of a mode fits, a newline ends all modes, and any other character
is an error.

`Piece.cut` takes a prepared text: line ends are newlines, and the text has no newlines around it but for one
at its end.
-/

namespace Routing.Highlight

/-! ### Pieces -/

/-- What a piece of a pattern is. -/
inductive PieceKind where
  | text
  | whitespace
  | punctuation
  | operator
  | keyword
  | variable
  | attribute
  | capture
  | error
  deriving DecidableEq, Repr

/-- The name of a kind. -/
def PieceKind.name : PieceKind → String
  | .text => "Token.Text"
  | .whitespace => "Token.Text.Whitespace"
  | .punctuation => "Token.Punctuation"
  | .operator => "Token.Operator"
  | .keyword => "Token.Keyword"
  | .variable => "Token.Name.Variable"
  | .attribute => "Token.Name.Attribute"
  | .capture => "Token.Literal.String.Regex"
  | .error => "Token.Error"

/-- The colour of a kind, as its number in a terminal; plain kinds have none. -/
def PieceKind.colour : PieceKind → Option Nat
  | .text => none
  | .whitespace => some 37
  | .punctuation => none
  | .operator => none
  | .keyword => some 34
  | .variable => some 31
  | .attribute => some 36
  | .capture => some 33
  | .error => some 91

/-- A piece of a pattern. -/
structure Piece where
  kind : PieceKind
  text : Text
  deriving DecidableEq, Repr

/-! ### Preparing -/

/-- One line end for each of the several forms of line ends. -/
def unifyLines : Text → Text
  | '\r' :: '\n' :: rest => '\n' :: unifyLines rest
  | '\r' :: rest => '\n' :: unifyLines rest
  | c :: rest => c :: unifyLines rest
  | [] => []

/-- A text without the mark that tells the byte order. -/
def dropOrderMark : Text → Text
  | '\ufeff' :: rest => rest
  | t => t

/-- The text that is cut for a pattern. -/
def prepare (pattern : Text) : Text := Text.strip '\n' (unifyLines (dropOrderMark pattern)) ++ ['\n']

/-! ### Shapes -/

/-- The name and the character after it that follow an opening brace, with what is after both. -/
def nameAhead (t : Text) : Option (Text × Char × Text) :=
  let name := t.takeWhile Text.isWord
  if name.isEmpty then none
  else
    match t.dropWhile Text.isWord with
    | c :: rest => some (name, c, rest)
    | [] => none

/-- Whether a query variable follows a question mark. -/
def queryAhead : Text → Bool
  | '\x7b' :: rest =>
    match nameAhead rest with
    | some (_, '\x7d', _) => true
    | _ => false
  | _ => false

/-- Whether a character is plain in the outermost mode. -/
def isPlain (c : Char) : Bool := !(['?', '\x7b', '\x7d', '[', ']'].contains c)

/-- Whether a character is no brace. -/
def isNoBrace (c : Char) : Bool := c != '\x7b' && c != '\x7d'

/-- Whether a character is none that ends a line. -/
def isInLine (c : Char) : Bool := c != '\n'

/-- What a text may start with. -/
inductive Shape where
  /-- One character of a class. -/
  | one (kind : PieceKind) (among : Char → Bool)
  /-- The characters of a class up to the first other one, and at least one. -/
  | run (kind : PieceKind) (among : Char → Bool)
  /-- An opening brace, a name and a character that ends it. -/
  | named (kind : PieceKind) (last : Char)
  /-- The bracket that closes a group, and the operator after it. -/
  | repeated
  /-- A question mark before a query variable. -/
  | question

/-- The pieces of a shape that a text starts with, and what is after them. -/
def Shape.take (t : Text) : Shape → Option (List Piece × Text)
  | one kind among =>
    match t with
    | c :: rest => if among c then some ([⟨kind, [c]⟩], rest) else none
    | [] => none
  | run kind among =>
    match t with
    | c :: rest => if among c then some ([⟨kind, c :: rest.takeWhile among⟩], rest.dropWhile among) else none
    | [] => none
  | named kind last =>
    match t with
    | '\x7b' :: rest =>
      match nameAhead rest with
      | some (name, c, after) =>
        if c = last then some ([⟨.punctuation, ['\x7b']⟩, ⟨kind, name⟩, ⟨.punctuation, [c]⟩], after) else none
      | none => none
    | _ => none
  | repeated =>
    match t with
    | ']' :: c :: rest => if c = '*' ∨ c = '+' then some ([⟨.punctuation, [']']⟩, ⟨.operator, [c]⟩], rest) else none
    | _ => none
  | question =>
    match t with
    | '?' :: rest => if queryAhead rest then some ([⟨.keyword, ['?']⟩], rest) else none
    | _ => none

theorem eq_of_nameAhead {t name after : Text} {c : Char} (h : nameAhead t = some (name, c, after)) :
    t = name ++ c :: after := by
  simp only [nameAhead] at h
  split at h
  · cases h
  · split at h
    · next hdrop =>
      obtain ⟨rfl, rfl, rfl⟩ : t.takeWhile Text.isWord = name ∧ _ = c ∧ _ = after := by simpa using h
      rw [← hdrop, List.takeWhile_append_dropWhile]
    · cases h

theorem ne_nil_of_nameAhead {t name after : Text} {c : Char} (h : nameAhead t = some (name, c, after)) : name ≠ [] := by
  simp only [nameAhead] at h
  split at h
  · cases h
  · next hne =>
    split at h
    · rintro rfl
      simp_all
    · cases h

/-- What a shape takes is a beginning of the text, in pieces that are not empty. -/
theorem Shape.eq_of_take {s : Shape} {t rest : Text} {pieces : List Piece} (h : s.take t = some (pieces, rest)) :
    pieces.flatMap Piece.text ++ rest = t ∧ pieces ≠ [] ∧ ∀ p ∈ pieces, p.text ≠ [] := by
  cases s with
  | one kind among =>
    dsimp only [take] at h
    split at h
    · split at h <;> cases h
      simp
    · cases h
  | run kind among =>
    dsimp only [take] at h
    split at h
    · split at h <;> cases h
      simp [List.takeWhile_append_dropWhile]
    · cases h
  | named kind last =>
    dsimp only [take] at h
    split at h
    · split at h
      · next hname =>
        split at h <;> cases h
        simp [eq_of_nameAhead hname, ne_nil_of_nameAhead hname]
      · cases h
    · cases h
  | repeated =>
    dsimp only [take] at h
    split at h
    · split at h <;> cases h
      simp
    · cases h
  | question =>
    dsimp only [take] at h
    split at h
    · split at h <;> cases h
      simp
    · cases h

/-! ### Rules -/

/-- What the innermost part that is open holds. -/
inductive Mode where
  | capture
  | nested
  | query
  deriving DecidableEq, Repr

/-- What becomes of the modes. -/
inductive Turn where
  | stay
  | enter (m : Mode)
  | leave
  deriving DecidableEq, Repr

/-- The modes after a turn, the innermost one first. -/
def Turn.apply (modes : List Mode) : Turn → List Mode
  | stay => modes
  | enter m => m :: modes
  | leave => modes.tail

/-- A shape, and what becomes of the modes where a text starts with it. -/
structure Rule where
  shape : Shape
  turn : Turn := .stay

/-- The rules outside of captures and query suffixes. -/
def outerRules : List Rule := [
  ⟨.question, .enter .query⟩,
  ⟨.named .variable ':', .enter .capture⟩,
  ⟨.named .variable '\x7d', .stay⟩,
  ⟨.one .punctuation (· == '['), .stay⟩,
  ⟨.repeated, .stay⟩,
  ⟨.one .punctuation (· == ']'), .stay⟩,
  ⟨.run .text isPlain, .stay⟩,
  ⟨.one .text isInLine, .stay⟩]

/-- The rules inside of a capture. -/
def captureRules : List Rule := [
  ⟨.one .capture (· == '\x7b'), .enter .nested⟩,
  ⟨.one .punctuation (· == '\x7d'), .leave⟩,
  ⟨.run .capture isNoBrace, .stay⟩]

/-- The rules inside of braces in a capture. -/
def nestedRules : List Rule := [
  ⟨.one .capture (· == '\x7b'), .enter .nested⟩,
  ⟨.one .capture (· == '\x7d'), .leave⟩,
  ⟨.run .capture isNoBrace, .stay⟩]

/-- The rules inside of a query suffix. -/
def queryRules : List Rule := [
  ⟨.named .attribute '\x7d', .stay⟩,
  ⟨.one .keyword (· == '&'), .stay⟩,
  ⟨.one .text isInLine, .stay⟩]

/-- The rules of the innermost mode. -/
def rulesOf : List Mode → List Rule
  | [] => outerRules
  | .capture :: _ => captureRules
  | .nested :: _ => nestedRules
  | .query :: _ => queryRules

/-! ### Cutting -/

/-- Some pieces, the modes after them, and the text after them. -/
abbrev Step := List Piece × List Mode × Text

/-- What the first rule that fits a text makes of it. -/
def applyFirst (modes : List Mode) (t : Text) (rules : List Rule) : Option Step :=
  rules.findSome? fun rule => (rule.shape.take t).map fun (pieces, rest) => (pieces, rule.turn.apply modes, rest)

/-- The first pieces of a text `c :: rest` in some modes, the innermost one first. -/
def step (modes : List Mode) (c : Char) (rest : Text) : Step :=
  match applyFirst modes (c :: rest) (rulesOf modes) with
  | some s => s
  | none => if c = '\n' then ([⟨.whitespace, [c]⟩], [], rest) else ([⟨.error, [c]⟩], modes, rest)

theorem applyFirst_eq_some {modes : List Mode} {t : Text} {rules : List Rule} {s : Step}
    (h : applyFirst modes t rules = some s) :
    ∃ rule ∈ rules, rule.shape.take t = some (s.1, s.2.2) ∧ s.2.1 = rule.turn.apply modes := by
  obtain ⟨rule, hrule, h⟩ := List.exists_of_findSome?_eq_some h
  obtain ⟨⟨pieces, rest⟩, htake, rfl⟩ := Option.map_eq_some_iff.mp h
  exact ⟨rule, hrule, htake, rfl⟩

/-- A step loses no text, and none of its pieces is empty. -/
theorem eq_of_step (modes : List Mode) (c : Char) (rest : Text) :
    (step modes c rest).1.flatMap Piece.text ++ (step modes c rest).2.2 = c :: rest ∧
      (step modes c rest).1 ≠ [] ∧ ∀ p ∈ (step modes c rest).1, p.text ≠ [] := by
  unfold step
  split
  · next h =>
    obtain ⟨rule, -, htake, -⟩ := applyFirst_eq_some h
    exact Shape.eq_of_take htake
  · split <;> simp

/-- Every step moves on. -/
theorem length_step (modes : List Mode) (c : Char) (rest : Text) : (step modes c rest).2.2.length ≤ rest.length := by
  obtain ⟨htext, hne, hpieces⟩ := eq_of_step modes c rest
  obtain ⟨p, others, hp⟩ := List.exists_cons_of_ne_nil hne
  have hpos := List.length_pos_iff.mpr (hpieces p (hp ▸ List.mem_cons_self))
  have hlength := congrArg List.length htext
  rw [hp, List.flatMap_cons] at hlength
  simp only [List.length_append, List.length_cons] at hlength
  omega

/-- The pieces of a prepared text. -/
def cut (modes : List Mode) (t : Text) : List Piece :=
  match t with
  | [] => []
  | c :: rest => (step modes c rest).1 ++ cut (step modes c rest).2.1 (step modes c rest).2.2
termination_by t.length
decreasing_by exact Nat.lt_succ_of_le (length_step modes c rest)

/-- The pieces of a pattern. -/
def pieces (pattern : Text) : List Piece := cut [] (prepare pattern)

/-! ### Colours -/

/-- Whether a line ends after a character. -/
def endsLine (c : Char) : Bool :=
  ['\n', '\x0b', '\x0c', '\x1c', '\x1d', '\x1e', '\x85', '\u2028', '\u2029'].contains c

/-- The lines of a text, each with the character that ends it. -/
def lines : Text → List Text
  | [] => []
  | c :: rest =>
    if endsLine c then [c] :: lines rest
    else
      match lines rest with
      | [] => [[c]]
      | line :: others => (c :: line) :: others

/-- A line in a colour; a newline at its end stays outside. -/
def colourLine (colour : Nat) (line : Text) : Text :=
  let core := Text.dropTrailing '\n' line
  '\x1b' :: '[' :: Text.ofNat colour ++ ['m'] ++ core ++ "\x1b[39;49;00m".toList ++
    (if line.getLast? = some '\n' then ['\n'] else [])

/-- A piece as it is written to a terminal, line by line. -/
def Piece.shown (p : Piece) : Text :=
  match p.kind.colour with
  | some colour => (lines p.text).flatMap (colourLine colour)
  | none => p.text

/-- A pattern as it is written to a terminal. -/
def highlight (pattern : Text) : Text := Text.dropTrailing '\n' ((pieces pattern).flatMap Piece.shown)

end Routing.Highlight
