import Routing.Regex
import Routing.Text.Identifier

/-!
# Lexemes of regular expressions

The written form of an expression falls into lexemes: a character, a set, an anchor, a count, a parenthesis.
`Lexeme.next` reads one, or refuses the text where no lexeme is written properly (a set or a comment that does
not end, an unknown escape, a range whose ends are in the wrong order); `Lexeme.all` reads them all, and ends with
`Lexeme.broken` where it has to give up.

Braces that do not write a count stand for themselves: `x{}` and `x{1` hold plain characters. A missing
least count is zero, a missing greatest one is none, so `x{,}` repeats without bounds.
-/

namespace Routing.Regex

/-- What the letters inside a parenthesis turn on. -/
structure Flags where
  anyCase : Bool := false
  manyLines : Bool := false
  dotAll : Bool := false
  deriving DecidableEq, Repr

/-- The kinds of parentheses. -/
inductive Opening where
  | plain
  | capturing (name : Option Text)
  | atomic
  | look (wanted : Bool)
  | flagged (on off : Flags)
  deriving DecidableEq, Repr

/-- How a count yields: it takes much first, little first, or never gives back. -/
inductive Manner where
  | greedy
  | reluctant
  | possessive
  deriving DecidableEq, Repr

/-- The smallest parts of a written expression. -/
inductive Lexeme where
  | point (n : Nat)
  | set (items : List ClassItem) (complement : Bool)
  | dot
  | caret
  | dollar
  | anchor (place : Anchor)
  | backref (index : Nat)
  | namedRef (name : Text)
  | opening (kind : Opening)
  | closing
  | bar
  | count (least : Nat) (most : Option Nat) (manner : Manner)
  | flags (on : Flags)
  | comment
  /-- Text that is no lexeme. -/
  | broken
  deriving DecidableEq, Repr

/-! ### Escapes -/

/-- The control characters and the backslash, by the letter that writes them after a backslash. -/
def controlPoint : Char → Option Nat
  | 'a' => some 7
  | 'f' => some 12
  | 'n' => some 10
  | 'r' => some 13
  | 't' => some 9
  | 'v' => some 11
  | '\\' => some 92
  | _ => none

/-- The categories, by the letter that writes them after a backslash, and whether it means the complement. -/
def categoryOf : Char → Option (Category × Bool)
  | 'd' => some (.digit, false)
  | 'D' => some (.digit, true)
  | 's' => some (.blank, false)
  | 'S' => some (.blank, true)
  | 'w' => some (.word, false)
  | 'W' => some (.word, true)
  | _ => none

/-- The anchors, by the letter that writes them after a backslash. -/
def anchorOf : Char → Option Anchor
  | 'A' => some .start
  | 'Z' => some .textEnd
  | 'b' => some .wordEdge
  | 'B' => some .notWordEdge
  | _ => none

/-- How many hexadecimal digits follow the letter of an escape. -/
def hexWidth : Char → Option Nat
  | 'x' => some 2
  | 'u' => some 4
  | 'U' => some 8
  | _ => none

/-- The code point that `width` hexadecimal digits write. -/
def hexPoint (width : Nat) (t : Text) : Option (Nat × Text) :=
  if (t.take width).length = width then
    match Text.hexNat? (t.take width) with
    | some n => if n < 0x110000 then some (n, t.drop width) else none
    | none => none
  else none

theorem length_hexPoint {width : Nat} {t r : Text} {n : Nat} (h : hexPoint width t = some (n, r)) :
    r.length ≤ t.length := by
  unfold hexPoint at h
  split at h
  · split at h
    · split at h
      · simp only [Option.some.injEq, Prod.mk.injEq] at h
        rw [← h.2, List.length_drop]
        omega
      · simp at h
    · simp at h
  · simp at h

/-- Whether a character is an octal digit. -/
def isOctal (c : Char) : Bool := '0' ≤ c && c ≤ '7'

/-- The number that octal digits write. -/
def octalNat (ds : Text) : Nat := ds.foldl (fun n c => 8 * n + (c.toNat - 48)) 0

/-- The octal digits at the start of a text, `limit` at most. -/
def octalDigits (limit : Nat) (t : Text) : Text := (t.take limit).takeWhile isOctal

/-- The number that decimal digits write. -/
def decimalNat (ds : Text) : Nat := ds.foldl (fun n c => 10 * n + (c.toNat - 48)) 0

/-- What a backslash and a digit other than `0` write: three octal digits are a character, any other one or two
digits the number of a capture. -/
def numberEscape (d : Char) : Text → Option (Lexeme × Text)
  | e :: f :: rest =>
    if e.isDigit then
      if isOctal d && isOctal e && isOctal f then
        let n := octalNat [d, e, f]
        if n ≤ 0xFF then some (.point n, rest) else none
      else some (.backref (decimalNat [d, e]), f :: rest)
    else some (.backref (decimalNat [d]), e :: f :: rest)
  | [e] => if e.isDigit then some (.backref (decimalNat [d, e]), []) else some (.backref (decimalNat [d]), [e])
  | [] => some (.backref (decimalNat [d]), [])

theorem length_numberEscape {d : Char} {t r : Text} {l : Lexeme} (h : numberEscape d t = some (l, r)) :
    r.length ≤ t.length := by
  unfold numberEscape at h
  split at h
  · next e f rest =>
    split at h
    · split at h
      · simp only at h
        split at h
        · simp only [Option.some.injEq, Prod.mk.injEq] at h
          rw [← h.2]
          simp only [List.length_cons]
          omega
        · simp at h
      · simp only [Option.some.injEq, Prod.mk.injEq] at h
        rw [← h.2]
        simp
    · simp only [Option.some.injEq, Prod.mk.injEq] at h
      exact h.2 ▸ Nat.le_refl _
  · split at h
    · simp only [Option.some.injEq, Prod.mk.injEq] at h
      rw [← h.2]
      simp
    · simp only [Option.some.injEq, Prod.mk.injEq] at h
      exact h.2 ▸ Nat.le_refl _
  · simp only [Option.some.injEq, Prod.mk.injEq] at h
    exact h.2 ▸ Nat.le_refl _

/-- What a backslash and `c` write outside of a set. -/
def escapeLexeme (c : Char) (rest : Text) : Option (Lexeme × Text) :=
  match anchorOf c, categoryOf c, controlPoint c, hexWidth c with
  | some place, _, _, _ => some (.anchor place, rest)
  | _, some (kind, complement), _, _ => some (.set [.category kind complement] false, rest)
  | _, _, some n, _ => some (.point n, rest)
  | _, _, _, some width => (hexPoint width rest).map fun (n, rest) => (.point n, rest)
  | none, none, none, none =>
    if c = '0' then
      let ds := octalDigits 2 rest
      some (.point (octalNat ds), rest.drop ds.length)
    else if c.isDigit then numberEscape c rest
    else if c.isAlpha then none
    else some (.point c.toNat, rest)

theorem length_escapeLexeme {c : Char} {t r : Text} {l : Lexeme} (h : escapeLexeme c t = some (l, r)) :
    r.length ≤ t.length := by
  unfold escapeLexeme at h
  split at h
  · simp only [Option.some.injEq, Prod.mk.injEq] at h
    exact h.2 ▸ Nat.le_refl _
  · simp only [Option.some.injEq, Prod.mk.injEq] at h
    exact h.2 ▸ Nat.le_refl _
  · simp only [Option.some.injEq, Prod.mk.injEq] at h
    exact h.2 ▸ Nat.le_refl _
  · obtain ⟨⟨n, s⟩, hs, he⟩ := Option.map_eq_some_iff.1 h
    simp only [Prod.mk.injEq] at he
    exact he.2 ▸ length_hexPoint hs
  · split at h
    · simp only [Option.some.injEq, Prod.mk.injEq] at h
      rw [← h.2, List.length_drop]
      omega
    · split at h
      · exact length_numberEscape h
      · split at h
        · simp at h
        · simp only [Option.some.injEq, Prod.mk.injEq] at h
          exact h.2 ▸ Nat.le_refl _

/-! ### Sets -/

/-- One member of a set as it is written: a code point or a category. -/
inductive ClassAtom where
  | point (n : Nat)
  | category (kind : Category) (complement : Bool)
  deriving DecidableEq, Repr

/-- The set item of a member by itself. -/
def ClassAtom.item : ClassAtom → ClassItem
  | point n => .range n n
  | category kind complement => .category kind complement

/-- What a backslash and `c` write inside a set. -/
def escapeAtom (c : Char) (rest : Text) : Option (ClassAtom × Text) :=
  match categoryOf c, controlPoint c, hexWidth c with
  | some (kind, complement), _, _ => some (.category kind complement, rest)
  | _, some n, _ => some (.point n, rest)
  | _, _, some width => (hexPoint width rest).map fun (n, rest) => (.point n, rest)
  | none, none, none =>
    if c = 'b' then some (.point 8, rest)
    else if isOctal c then
      let ds := octalDigits 2 rest
      let n := octalNat (c :: ds)
      if n ≤ 0xFF then some (.point n, rest.drop ds.length) else none
    else if c.isAlphanum then none
    else some (.point c.toNat, rest)

/-- One member of a set. -/
def classAtom : Text → Option (ClassAtom × Text)
  | [] => none
  | ['\\'] => none
  | '\\' :: c :: rest => escapeAtom c rest
  | c :: rest => some (.point c.toNat, rest)

theorem length_escapeAtom {c : Char} {t r : Text} {a : ClassAtom} (h : escapeAtom c t = some (a, r)) :
    r.length ≤ t.length := by
  unfold escapeAtom at h
  split at h
  · simp only [Option.some.injEq, Prod.mk.injEq] at h; exact h.2 ▸ Nat.le_refl _
  · simp only [Option.some.injEq, Prod.mk.injEq] at h; exact h.2 ▸ Nat.le_refl _
  · simp only [Option.map_eq_some_iff] at h
    obtain ⟨⟨n, r'⟩, hn, he⟩ := h
    simp only [Prod.mk.injEq] at he
    rw [← he.2]
    exact length_hexPoint hn
  · split at h
    · simp only [Option.some.injEq, Prod.mk.injEq] at h; exact h.2 ▸ Nat.le_refl _
    · split at h
      · simp only at h
        split at h
        · simp only [Option.some.injEq, Prod.mk.injEq] at h; rw [← h.2, List.length_drop]; omega
        · simp at h
      · split at h
        · simp at h
        · simp only [Option.some.injEq, Prod.mk.injEq] at h; exact h.2 ▸ Nat.le_refl _

theorem length_classAtom {t r : Text} {a : ClassAtom} (h : classAtom t = some (a, r)) : r.length < t.length := by
  unfold classAtom at h
  split at h
  · simp at h
  · simp at h
  · have := length_escapeAtom h
    simp only [List.length_cons]
    omega
  · simp only [Option.some.injEq, Prod.mk.injEq] at h
    rw [← h.2]
    simp

/-- The items of a set up to the bracket that closes it, and what is after it. A closing bracket that comes first
is a member, and so is a dash that comes last. -/
def classItems (first : Bool) (t : Text) : Option (List ClassItem × Text) :=
  if !first && t.head? == some ']' then some ([], t.drop 1)
  else
    match _h : classAtom t with
    | none => none
    | some (_, []) => none
    | some (a, '-' :: ']' :: after) => some ([a.item, .range 45 45], after)
    | some (a, '-' :: more) =>
      match _hb : classAtom more with
      | none => none
      | some (b, after) =>
        match a, b with
        | .point low, .point high =>
          if low ≤ high then (classItems false after).map fun (items, r) => (.range low high :: items, r)
          else none
        | _, _ => none
    | some (a, c :: rest) => (classItems false (c :: rest)).map fun (items, r) => (a.item :: items, r)
termination_by t.length
decreasing_by
  · have h₁ := length_classAtom _h
    have h₂ := length_classAtom _hb
    simp only [List.length_cons] at h₁
    omega
  · exact length_classAtom _h

theorem length_classItems {first : Bool} {t r : Text} {items : List ClassItem}
    (h : classItems first t = some (items, r)) : r.length < t.length := by
  fun_induction classItems first t generalizing items with
  | case1 first t hc =>
    simp only [Option.some.injEq, Prod.mk.injEq] at h
    cases t with
    | nil => simp at hc
    | cons c t => rw [← h.2]; simp
  | case2 => simp at h
  | case3 => simp at h
  | case4 first t hc a after ha =>
    have := length_classAtom ha
    simp only [Option.some.injEq, Prod.mk.injEq] at h
    simp only [List.length_cons] at this
    rw [← h.2]
    omega
  | case5 => simp at h
  | case6 first t hc more hm after low high ha hb hle _ _ ih =>
    obtain ⟨⟨i, s⟩, hs, he⟩ := Option.map_eq_some_iff.1 h
    simp only [Prod.mk.injEq] at he
    have h₁ := length_classAtom ha
    have h₂ := length_classAtom hb
    obtain ⟨-, rfl⟩ := he
    have h₃ := ih hs
    simp only [List.length_cons] at h₁
    omega
  | case7 => simp at h
  | case8 => simp at h
  | case9 first t hc a c rest h₁ h₂ ha ih =>
    obtain ⟨⟨i, s⟩, hs, he⟩ := Option.map_eq_some_iff.1 h
    simp only [Prod.mk.injEq] at he
    obtain ⟨-, rfl⟩ := he
    exact Nat.lt_trans (ih hs) (length_classAtom ha)

/-! ### Counts and parentheses -/

/-- The manner that is written after a count. -/
def mannerOf : Text → Manner × Text
  | '?' :: rest => (.reluctant, rest)
  | '+' :: rest => (.possessive, rest)
  | rest => (.greedy, rest)

theorem length_mannerOf (t : Text) : (mannerOf t).2.length ≤ t.length := by
  unfold mannerOf
  split <;> simp

/-- A count with its manner. -/
def countLexeme (least : Nat) (most : Option Nat) (rest : Text) : Lexeme × Text :=
  (.count least most (mannerOf rest).1, (mannerOf rest).2)

/-- The count that braces write, given what is after the opening one: its two numbers as digits, and what is
after the closing one. -/
def braceCount (t : Text) : Option (Text × Text × Text) :=
  let low := t.takeWhile Char.isDigit
  match t.dropWhile Char.isDigit with
  | '\x7d' :: rest => if low.isEmpty then none else some (low, low, rest)
  | ',' :: more =>
    match more.dropWhile Char.isDigit with
    | '\x7d' :: rest => some (low, more.takeWhile Char.isDigit, rest)
    | _ => none
  | _ => none

theorem length_dropWhile_cons {p : Char → Bool} {t r : Text} {c : Char} (h : t.dropWhile p = c :: r) :
    r.length < t.length := by
  have := (List.dropWhile_sublist p (l := t)).length_le
  rw [h, List.length_cons] at this
  exact this

theorem length_braceCount {t low high r : Text} (h : braceCount t = some (low, high, r)) : r.length < t.length := by
  simp only [braceCount] at h
  split at h
  · next he =>
    split at h
    · simp at h
    · simp only [Option.some.injEq, Prod.mk.injEq] at h
      exact h.2.2 ▸ length_dropWhile_cons he
  · next he =>
    split at h
    · next hm =>
      simp only [Option.some.injEq, Prod.mk.injEq] at h
      exact h.2.2 ▸ Nat.lt_trans (length_dropWhile_cons hm) (length_dropWhile_cons he)
    · simp at h
  · simp at h

/-- What an opening brace writes. -/
def braceLexeme (t : Text) : Lexeme × Text :=
  match braceCount t with
  | none => (.point 123, t)
  | some (low, high, rest) =>
    countLexeme (decimalNat low) (if high.isEmpty then none else some (decimalNat high)) rest

theorem length_braceLexeme (t : Text) : (braceLexeme t).2.length ≤ t.length := by
  unfold braceLexeme
  split
  · exact Nat.le_refl _
  · next hc => exact Nat.le_trans (length_mannerOf _) (Nat.le_of_lt (length_braceCount hc))

/-- The text before the first `stop` and what is after it. -/
def untilChar (stop : Char) (t : Text) : Option (Text × Text) :=
  match t.dropWhile (· != stop) with
  | _ :: rest => some (t.takeWhile (· != stop), rest)
  | [] => none

theorem length_untilChar {stop : Char} {t inside r : Text} (h : untilChar stop t = some (inside, r)) :
    r.length < t.length := by
  unfold untilChar at h
  split at h
  · next he =>
    simp only [Option.some.injEq, Prod.mk.injEq] at h
    exact h.2 ▸ length_dropWhile_cons he
  · simp at h

/-- The flags with the one that a letter writes turned on. -/
def Flags.with (f : Flags) : Char → Option Flags
  | 'i' => some { f with anyCase := true }
  | 'm' => some { f with manyLines := true }
  | 's' => some { f with dotAll := true }
  | _ => none

/-- The flags that letters write. -/
def flagsOf (letters : Text) : Option Flags := letters.foldlM Flags.with {}

/-- Whether two sets of flags share one. -/
def Flags.meets (f g : Flags) : Bool :=
  (f.anyCase && g.anyCase) || (f.manyLines && g.manyLines) || (f.dotAll && g.dotAll)

/-- What letters write after `(?`, up to a colon or a closing parenthesis. -/
def flagsLexeme (t : Text) : Option (Lexeme × Text) :=
  let on := t.takeWhile Char.isAlpha
  match flagsOf (on.filter (· != 'u')), t.dropWhile Char.isAlpha with
  | some f, ')' :: rest => if on.isEmpty then none else some (.flags f, rest)
  | some f, ':' :: rest => if on.isEmpty then none else some (.opening (.flagged f {}), rest)
  | some f, '-' :: more =>
    let off := more.takeWhile Char.isAlpha
    match flagsOf off, more.dropWhile Char.isAlpha with
    | some g, ':' :: rest =>
      if off.isEmpty || f.meets g then none else some (.opening (.flagged f g), rest)
    | _, _ => none
  | _, _ => none

theorem length_flagsLexeme {t r : Text} {l : Lexeme} (h : flagsLexeme t = some (l, r)) : r.length < t.length := by
  simp only [flagsLexeme] at h
  split at h
  · next he =>
    split at h
    · simp at h
    · simp only [Option.some.injEq, Prod.mk.injEq] at h
      exact h.2 ▸ length_dropWhile_cons he
  · next he =>
    split at h
    · simp at h
    · simp only [Option.some.injEq, Prod.mk.injEq] at h
      exact h.2 ▸ length_dropWhile_cons he
  · next he =>
    split at h
    · next hm =>
      split at h
      · simp at h
      · simp only [Option.some.injEq, Prod.mk.injEq] at h
        exact h.2 ▸ Nat.lt_trans (length_dropWhile_cons hm) (length_dropWhile_cons he)
    · simp at h
  · simp at h

/-- What is written after `(?`. -/
def groupLexeme : Text → Option (Lexeme × Text)
  | ':' :: rest => some (.opening .plain, rest)
  | '>' :: rest => some (.opening .atomic, rest)
  | '=' :: rest => some (.opening (.look true), rest)
  | '!' :: rest => some (.opening (.look false), rest)
  | '#' :: rest => (untilChar ')' rest).map fun (_, after) => (.comment, after)
  | 'P' :: '<' :: rest =>
    match untilChar '>' rest with
    | some (name, after) => if Text.isIdentifier name then some (.opening (.capturing (some name)), after) else none
    | none => none
  | 'P' :: '=' :: rest =>
    match untilChar ')' rest with
    | some (name, after) => if Text.isIdentifier name then some (.namedRef name, after) else none
    | none => none
  | t => flagsLexeme t

theorem length_groupLexeme {t r : Text} {l : Lexeme} (h : groupLexeme t = some (l, r)) : r.length < t.length := by
  unfold groupLexeme at h
  split at h
  case h_1 | h_2 | h_3 | h_4 =>
    simp only [Option.some.injEq, Prod.mk.injEq] at h
    exact h.2 ▸ Nat.lt_succ_self _
  case h_5 =>
    obtain ⟨⟨inside, s⟩, hs, he⟩ := Option.map_eq_some_iff.1 h
    simp only [Prod.mk.injEq] at he
    exact he.2 ▸ Nat.lt_succ_of_lt (length_untilChar hs)
  case h_6 | h_7 =>
    split at h
    · next name after hs =>
      split at h
      · simp only [Option.some.injEq, Prod.mk.injEq] at h
        exact h.2 ▸ Nat.lt_succ_of_lt (Nat.lt_succ_of_lt (length_untilChar hs))
      · simp at h
    · simp at h
  case h_8 => exact length_flagsLexeme h

/-- The first lexeme of a text and what is after it. -/
def Lexeme.next : Text → Option (Lexeme × Text)
  | [] => none
  | ['\\'] => none
  | '\\' :: c :: rest => escapeLexeme c rest
  | '.' :: rest => some (.dot, rest)
  | '^' :: rest => some (.caret, rest)
  | '$' :: rest => some (.dollar, rest)
  | '[' :: '^' :: rest => (classItems true rest).map fun (items, after) => (.set items true, after)
  | '[' :: rest => (classItems true rest).map fun (items, after) => (.set items false, after)
  | '(' :: '?' :: rest => groupLexeme rest
  | '(' :: rest => some (.opening (.capturing none), rest)
  | ')' :: rest => some (.closing, rest)
  | '|' :: rest => some (.bar, rest)
  | '*' :: rest => some (countLexeme 0 none rest)
  | '+' :: rest => some (countLexeme 1 none rest)
  | '?' :: rest => some (countLexeme 0 (some 1) rest)
  | '\x7b' :: rest => some (braceLexeme rest)
  | c :: rest => some (.point c.toNat, rest)

/-- Every lexeme takes at least one character. -/
theorem length_next {t r : Text} {l : Lexeme} (h : Lexeme.next t = some (l, r)) : r.length < t.length := by
  unfold Lexeme.next at h
  split at h
  case h_3 c rest =>
    have := length_escapeLexeme h
    simp only [List.length_cons]
    omega
  case h_7 rest =>
    obtain ⟨⟨items, s⟩, hs, he⟩ := Option.map_eq_some_iff.1 h
    simp only [Prod.mk.injEq] at he
    rw [← he.2]
    exact Nat.lt_succ_of_lt (Nat.lt_succ_of_lt (length_classItems hs))
  case h_8 rest _ =>
    obtain ⟨⟨items, s⟩, hs, he⟩ := Option.map_eq_some_iff.1 h
    simp only [Prod.mk.injEq] at he
    rw [← he.2]
    exact Nat.lt_succ_of_lt (length_classItems hs)
  case h_9 => exact Nat.lt_succ_of_lt (Nat.lt_succ_of_lt (length_groupLexeme h))
  case h_16 rest =>
    simp only [Option.some.injEq] at h
    have := length_braceLexeme rest
    rw [h] at this
    exact Nat.lt_succ_of_le this
  case h_1 | h_2 => simp at h
  case h_13 | h_14 | h_15 =>
    simp only [countLexeme, Option.some.injEq, Prod.mk.injEq] at h
    exact h.2 ▸ Nat.lt_succ_of_le (length_mannerOf _)
  all_goals
    simp only [Option.some.injEq, Prod.mk.injEq] at h
    exact h.2 ▸ Nat.lt_succ_self _

/-- All lexemes of a text, up to the first part that is none. -/
def Lexeme.all (t : Text) : List Lexeme :=
  if t.isEmpty then []
  else
    match _h : next t with
    | none => [.broken]
    | some (l, rest) => l :: all rest
termination_by t.length
decreasing_by exact length_next _h

end Routing.Regex
