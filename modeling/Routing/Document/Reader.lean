import Routing.Document.Scalar

/-!
# Reading documents

A document is written in blocks, where columns show what belongs together, or in brackets, where they do not
matter. Comments run from a number sign after a blank to the end of the line. Scalars stand in single quotes, in
double quotes with escapes, or without quotes; a scalar that goes on in the next line has a blank for the line end,
and a newline for each line left empty.

A key stands on one line with its colon, which is 1024 characters behind the start of the key at most.

Refused are brackets and quotes that do not end, a tab between tokens, a key in the value of another key on the
same line, a column that fits no open block, a marker between documents inside of brackets, and a second document.

The recursion follows the nesting of a document and the sequence of its parts; both are bounded by its length,
which `Node.read` passes on as fuel.
-/

namespace Routing

namespace Node

/-- Whether a character may stand in a document at all. -/
def isAllowed (c : Char) : Bool :=
  let n := c.toNat
  n == 9 || n == 10 || n == 13 || (32 ≤ n && n ≤ 126) || n == 0x85 || (0xA0 ≤ n && n ≤ 0xFFFD) || 0x10000 ≤ n

/-- Whether a line ends with a character. -/
def isBreak (c : Char) : Bool := c == '\n' || c == '\u2028' || c == '\u2029'

/-- Whether a character separates words. -/
def isGap (c : Char) : Bool := c == ' ' || c == '\t' || isBreak c

/-- Whether what follows starts with a blank, a tab or a line end, or is empty. -/
def atBlank : Text → Bool
  | [] => true
  | c :: _ => isGap c

/-- A text with a column: where reading has got to. -/
structure Source where
  rest : Text
  column : Nat
  deriving Repr

namespace Source

/-- The source after everything before `rest`, which is an end of what was left. -/
def moveTo (s : Source) (rest : Text) : Source :=
  let passed := s.rest.take (s.rest.length - rest.length)
  let line := passed.reverse.takeWhile (!isBreak ·)
  ⟨rest, if line.length < passed.length then line.length else s.column + line.length⟩

/-- Whether the rest of a line is a marker of three equal characters. -/
def isMarker (c : Char) (s : Source) : Bool :=
  s.column == 0 && [c, c, c].isPrefixOf s.rest && atBlank (s.rest.drop 3)

/-- Whether the document ends here. -/
def atEnd (s : Source) : Bool := s.rest.isEmpty || s.isMarker '-' || s.isMarker '.'

/-- Whether an item of a sequence starts here. -/
def atItem (s : Source) : Bool :=
  match s.rest with
  | '-' :: rest => atBlank rest
  | _ => false

end Source

/-- What is left after blanks, line ends and comments, and whether a line ended. -/
def skipGap (comment crossed : Bool) : Text → Text × Bool
  | [] => ([], crossed)
  | c :: rest =>
    if isBreak c then skipGap false true rest
    else if comment then skipGap true crossed rest
    else if c = ' ' then skipGap false crossed rest
    else if c = '#' then skipGap true crossed rest
    else (c :: rest, crossed)

/-- The next token, and whether a line ended before it. -/
def Source.skip (s : Source) : Source × Bool :=
  let (rest, crossed) := skipGap false false s.rest
  (s.moveTo rest, crossed)

/-! ### Scalars -/

/-- The text that stands for the line ends of a gap. A newline is a blank if it is the only one, and the first one
is nothing if there are more. -/
def foldLines : Text → Text
  | ['\n'] => [' ']
  | '\n' :: rest => rest
  | ends => ends

/-- What is left after blanks and line ends, and the line ends. -/
def skipLines (isBlank : Char → Bool) : Text → Text × Text
  | [] => ([], [])
  | c :: rest =>
    if isBreak c then ((skipLines isBlank rest).1, c :: (skipLines isBlank rest).2)
    else if isBlank c then skipLines isBlank rest
    else (c :: rest, [])

/-- Whether a character has a meaning of its own inside of brackets. -/
def isFlowMark (c : Char) : Bool := [',', '?', '[', ']', '\x7b', '\x7d'].contains c

/-- Whether a scalar without quotes ends before `c :: rest`. -/
def endsPlain (flow : Bool) (c : Char) (rest : Text) : Bool :=
  isGap c || (flow && isFlowMark c) ||
    (c == ':' && (atBlank rest || (flow && rest.head?.any fun d => [',', '[', ']', '\x7b', '\x7d'].contains d)))

/-- The part of a scalar without quotes up to the next gap, and what is after it. -/
def plainRun (flow : Bool) : Text → Text × Text
  | [] => ([], [])
  | c :: rest =>
    if endsPlain flow c rest then ([], c :: rest)
    else (c :: (plainRun flow rest).1, (plainRun flow rest).2)

/-- Whether a scalar without quotes may start here. -/
def startsPlain (flow : Bool) : Text → Bool
  | [] => false
  | c :: rest =>
    if isGap c then false
    else if ['-', '?', ':', ',', '[', ']', '\x7b', '\x7d', '#', '&', '*', '!', '|', '>', '\'', '"', '%',
        '@', '`'].contains c then
      !atBlank rest && (c == '-' || (!flow && (c == '?' || c == ':')))
    else true

/-- A scalar without quotes. It goes on after a gap unless a comment comes next or, outside of brackets, the next
line starts left of column `least`. -/
def plainText (flow : Bool) (least : Nat) : Nat → Source → Text × Source
  | 0, s => ([], s)
  | fuel + 1, s =>
    let (run, rest) := plainRun flow s.rest
    let after := s.moveTo rest
    let (more, ends) := skipLines (· == ' ') rest
    let next := after.moveTo more
    let (following, _) := plainRun flow more
    if more.length = rest.length || following.isEmpty || more.head? == some '#' || next.atEnd ||
        (!flow && !ends.isEmpty && next.column < least) then (run, after)
    else
      let (others, final) := plainText flow least fuel next
      let gap := if ends.isEmpty then rest.take (rest.length - more.length) else foldLines ends
      (run ++ gap ++ others, final)

/-- The character that an escape of one letter stands for. -/
def escapeChar : Char → Option Char
  | '0' => some '\x00'
  | 'a' => some '\x07'
  | 'b' => some '\x08'
  | 't' => some '\t'
  | '\t' => some '\t'
  | 'n' => some '\n'
  | 'v' => some '\x0b'
  | 'f' => some '\x0c'
  | 'r' => some '\r'
  | 'e' => some '\x1b'
  | ' ' => some ' '
  | '"' => some '"'
  | '/' => some '/'
  | '\\' => some '\\'
  | 'N' => some '\x85'
  | '_' => some '\xa0'
  | 'L' => some '\u2028'
  | 'P' => some '\u2029'
  | _ => none

/-- How many hexadecimal digits the letter of an escape takes. -/
def escapeWidth : Char → Option Nat
  | 'x' => some 2
  | 'u' => some 4
  | 'U' => some 8
  | _ => none

/-- Whether a marker between documents starts the line that is reached after some blanks and line ends. -/
def markerAfter (passed rest : Text) : Bool :=
  passed.getLast?.all isBreak && ((⟨rest, 0⟩ : Source).isMarker '-' || (⟨rest, 0⟩ : Source).isMarker '.')

/-- What is left after blanks and line ends inside of quotes, and the line ends. -/
def quotedLines (t : Text) : Option (Text × Text) :=
  let (more, ends) := skipLines (fun c => c == ' ' || c == '\t') t
  if markerAfter (t.take (t.length - more.length)) more then none else some (more, ends)

/-- What a gap inside of quotes stands for, and what is after it. -/
def quotedGap (t : Text) : Option (Text × Text) :=
  (quotedLines t).map fun (more, ends) =>
    (if ends.isEmpty then t.take (t.length - more.length) else foldLines ends, more)

/-- The inside of a scalar in double quotes, given what is after the first one, and what is after the last one. -/
def doubleQuoted : Nat → Text → Option (Text × Text)
  | 0, _ => none
  | _, [] => none
  | _, '"' :: rest => some ([], rest)
  | fuel + 1, '\\' :: c :: rest =>
    if isBreak c then
      match quotedLines rest with
      | some (more, ends) => (doubleQuoted fuel more).map fun (t, after) => (ends ++ t, after)
      | none => none
    else
      match escapeChar c, escapeWidth c with
      | some d, _ => (doubleQuoted fuel rest).map fun (t, after) => (d :: t, after)
      | none, some width =>
        if (rest.take width).length = width then
          match Text.hexNat? (rest.take width) with
          | some n => (doubleQuoted fuel (rest.drop width)).map fun (t, after) => (Char.ofNat n :: t, after)
          | none => none
        else none
      | none, none => none
  | fuel + 1, c :: rest =>
    if isGap c then
      match quotedGap (c :: rest) with
      | some (gap, more) => (doubleQuoted fuel more).map fun (t, after) => (gap ++ t, after)
      | none => none
    else (doubleQuoted fuel rest).map fun (t, after) => (c :: t, after)

/-- The inside of a scalar in single quotes, in which a quote is written twice, and what is after it. -/
def singleQuoted : Nat → Text → Option (Text × Text)
  | 0, _ => none
  | _, [] => none
  | fuel + 1, '\'' :: '\'' :: rest => (singleQuoted fuel rest).map fun (t, after) => ('\'' :: t, after)
  | _, '\'' :: rest => some ([], rest)
  | fuel + 1, c :: rest =>
    if isGap c then
      match quotedGap (c :: rest) with
      | some (gap, more) => (singleQuoted fuel more).map fun (t, after) => (gap ++ t, after)
      | none => none
    else (singleQuoted fuel rest).map fun (t, after) => (c :: t, after)

/-! ### Keys -/

/-- How far behind the start of a key its colon may be. -/
def keyLimit : Nat := 1024

/-- Whether a key may be written as what is in `t` before a colon and `rest`. -/
def isKeyBefore (t rest : Text) : Bool :=
  let size := t.length - rest.length
  size ≤ keyLimit + 1 && !(t.take size).any isBreak

/-! ### Brackets -/

/-- What is left after a gap inside of brackets, unless a marker between documents comes next. -/
def flowGap (t : Text) : Option Text :=
  let (rest, crossed) := skipGap false false t
  if crossed && markerAfter (t.take (t.length - rest.length)) rest then none else some rest

mutual

/-- A scalar or a collection in brackets. -/
def flowNode : Nat → Text → Option (Node × Text)
  | 0, _ => none
  | fuel + 1, '[' :: rest => (flowItems fuel rest).map fun (items, after) => (seq items, after)
  | fuel + 1, '\x7b' :: rest => (flowFields fuel rest).map fun (fields, after) => (map fields, after)
  | fuel + 1, '"' :: rest => (doubleQuoted fuel rest).map fun (t, after) => (quoted t, after)
  | fuel + 1, '\'' :: rest => (singleQuoted fuel rest).map fun (t, after) => (quoted t, after)
  | fuel + 1, t =>
    if startsPlain true t then
      let (text, after) := plainText true 0 fuel ⟨t, 1⟩
      some (plain text, after.rest)
    else none

/-- The value after a colon, blank where none is written. -/
def flowValue : Nat → Text → Option (Node × Text)
  | 0, _ => none
  | fuel + 1, t => do
    match ← flowGap t with
    | ',' :: rest => return (blank, ',' :: rest)
    | ']' :: rest => return (blank, ']' :: rest)
    | '\x7d' :: rest => return (blank, '\x7d' :: rest)
    | t => flowNode fuel t

/-- A node in brackets and, where it is a key, the value after its colon. -/
def flowPair : Nat → Text → Option (Node × Option Node × Text)
  | 0, _ => none
  | fuel + 1, t => do
    let (n, after) ← flowNode fuel t
    match ← flowGap after with
    | ':' :: rest =>
      if n.isScalar && isKeyBefore t rest then (flowValue fuel rest).map fun (v, after) => (n, some v, after)
      else none
    | after => return (n, none, after)

/-- The items of a sequence up to its bracket, and what is after it. An item with a colon is a mapping of one
field. -/
def flowItems : Nat → Text → Option (List Node × Text)
  | 0, _ => none
  | fuel + 1, t => do
    match ← flowGap t with
    | ']' :: rest => return ([], rest)
    | t => do
      let (n, value, t) ← flowPair fuel t
      let item := match value with
        | some v => map [(n, v)]
        | none => n
      match ← flowGap t with
      | ',' :: rest => (flowItems fuel rest).map fun (items, after) => (item :: items, after)
      | ']' :: rest => return ([item], rest)
      | _ => none

/-- The fields of a mapping up to its brace, and what is after it. A key without a colon has a blank value. -/
def flowFields : Nat → Text → Option (List (Node × Node) × Text)
  | 0, _ => none
  | fuel + 1, t => do
    match ← flowGap t with
    | '\x7d' :: rest => return ([], rest)
    | t => do
      let (key, value, t) ← flowPair fuel t
      if !key.isScalar then none
      let item := (key, value.getD blank)
      match ← flowGap t with
      | ',' :: rest => (flowFields fuel rest).map fun (fields, after) => (item :: fields, after)
      | '\x7d' :: rest => return ([item], rest)
      | _ => none

end

/-! ### Blocks -/

/-- A scalar or a collection in brackets, in a block whose content starts at column `least`. -/
def inline (fuel least : Nat) (s : Source) : Option (Node × Source) :=
  match s.rest with
  | [] => none
  | c :: _ =>
    if ['[', '\x7b', '"', '\''].contains c then (flowNode fuel s.rest).map fun (n, rest) => (n, s.moveTo rest)
    else if startsPlain false s.rest then
      let (t, after) := plainText false least fuel s
      some (plain t, after)
    else none

/-- What is after the colon of a key, where a key ends on its line. -/
def afterKey (s : Source) : Option Source :=
  let rest := s.rest.dropWhile (· == ' ')
  match rest with
  | ':' :: more => if atBlank more then some (s.moveTo more) else none
  | _ => none

mutual

/-- What stands at a token, in a block whose content starts at column `least`. A block may start here only if the
token is `fresh`: the first of its line, or right after the dash of an item. -/
def blockNode : Nat → Nat → Bool → Source → Option (Node × Source)
  | 0, _, _, _ => none
  | fuel + 1, least, fresh, s =>
    if s.atItem then
      if fresh then (blockItems fuel s.column s).map fun (items, after) => (seq items, after) else none
    else
      match inline fuel least s with
      | none => none
      | some (n, after) =>
        match afterKey after with
        | none => some (n, after)
        | some value =>
          if fresh && n.isScalar && isKeyBefore s.rest value.rest then
            (blockFields fuel s.column n value).map fun (fields, after) => (map fields, after)
          else none

/-- The items of a sequence in column `column`, from a dash on. -/
def blockItems : Nat → Nat → Source → Option (List Node × Source)
  | 0, _, _ => none
  | fuel + 1, column, s => do
    let afterDash := s.moveTo (s.rest.drop 1)
    let (token, crossed) := afterDash.skip
    let (item, after) ←
      if token.atEnd || (crossed && token.column ≤ column) then some (blank, afterDash)
      else blockNode fuel (column + 1) true token
    let (next, crossed) := after.skip
    if next.atEnd then some ([item], after)
    else if !crossed then none
    else if next.column = column then
      if next.atItem then (blockItems fuel column next).map fun (items, after) => (item :: items, after)
      else some ([item], after)
    else if next.column < column then some ([item], after)
    else none

/-- The fields of a mapping in column `column`, from the value of `key` on. -/
def blockFields : Nat → Nat → Node → Source → Option (List (Node × Node) × Source)
  | 0, _, _, _ => none
  | fuel + 1, column, key, s => do
    let (token, crossed) := s.skip
    let (value, after) ←
      if token.atEnd then some (blank, s)
      else if !crossed then blockNode fuel (column + 1) false token
      else if column < token.column then blockNode fuel (column + 1) true token
      else if token.column = column && token.atItem then
        (blockItems fuel column token).map fun (items, after) => (seq items, after)
      else some (blank, s)
    let (next, crossed) := after.skip
    if next.atEnd then some ([(key, value)], after)
    else if !crossed then none
    else if next.column = column then do
      let (nextKey, afterName) ← inline fuel (column + 1) next
      let nextValue ← afterKey afterName
      if nextKey.isScalar && isKeyBefore next.rest nextValue.rest then
        (blockFields fuel column nextKey nextValue).map fun (fields, after) => ((key, value) :: fields, after)
      else none
    else if next.column < column then some ([(key, value)], after)
    else none

end

/-- Whether nothing but closing markers is left. -/
def isOver : Nat → Source → Bool
  | 0, _ => false
  | fuel + 1, s =>
    let (next, _) := s.skip
    if next.isMarker '.' then isOver fuel (next.moveTo (next.rest.drop 3)) else next.rest.isEmpty

/-- The document that starts here; a blank one if there is none. Only one with an opening marker, which `marked` tells
of, may consist of a closing marker alone. -/
def content (fuel : Nat) (marked : Bool) (s : Source) : Option Node :=
  let (token, crossed) := s.skip
  if token.atEnd then
    if isOver fuel token && (marked || token.rest.isEmpty) then some blank else none
  else
    match blockNode fuel 0 (!marked || crossed) token with
    | some (n, after) => if isOver fuel after then some n else none
    | none => none

/-- A text with one form of line ends, and without a mark of the byte order before it. -/
def prepare : Text → Text
  | '\ufeff' :: rest => unify rest
  | t => unify t
where
  /-- A text with newlines for all line ends. -/
  unify : Text → Text
    | '\r' :: '\n' :: rest => '\n' :: unify rest
    | '\r' :: rest => '\n' :: unify rest
    | '\x85' :: rest => '\n' :: unify rest
    | c :: rest => c :: unify rest
    | [] => []

/-- The document that a text writes. -/
def read (t : Text) : Option Node :=
  let t := prepare t
  let fuel := 4 * t.length + 8
  if !t.all isAllowed then none
  else
    let (token, _) := (⟨t, 0⟩ : Source).skip
    if token.isMarker '-' then content fuel true (token.moveTo (token.rest.drop 3))
    else content fuel false ⟨t, 0⟩

end Node

/-- Why a text is no document. -/
inductive DocumentError where
  | malformed
  | noDigits (cause : Document.NoDigits)
  deriving DecidableEq, Repr

/-- The document that a text writes. What is wrong with a scalar shows only in a text that is well formed. -/
def Document.read (t : Text) : Except DocumentError Document :=
  match Node.read t with
  | none => .error .malformed
  | some n => (ofNode n).mapError .noDigits

end Routing
