import Mathlib.Data.Nat.Digits.Defs
import Routing.Value

/-!
# Quoted texts are told apart

What is written for a text between its quotes is read back character by character (`readEscaped_escapeIn`), and no
character is written with the quote at its start. So a quoted text is known, and where it ends, whatever stands behind
it (`quoted_append_inj`).

The values that a query gives are null, texts and lists of texts. Two of them are shown in the same way only if they are
equal, or one is the very text that the other one is shown as (`text_eq_iff`): the text `None` for null, or that of a
list with its brackets and quotes.
-/

namespace Routing

namespace Text

/-! ### Hexadecimal digits -/

theorem hexValue?_digitChar {n : Nat} (h : n < 16) : hexValue? n.digitChar = some n := by
  have hall : ∀ m : Fin 16, hexValue? (Nat.digitChar m) = some m.val := by decide
  exact hall ⟨n, h⟩

/-- The number of the digits of `n` after some zeros is `n`. -/
theorem hexNat?_hexOf (width n : Nat) : hexNat? (hexOf width n) = some n := by
  let read (acc : Option Nat) (c : Char) : Option Nat := do return 16 * (← acc) + (← hexValue? c)
  have hdigits : ∀ n : Nat, (Nat.toDigits 16 n).foldl read (some 0) = some n := by
    intro n
    induction n using Nat.strongRecOn with
    | ind n ih =>
      by_cases hn : n < 16
      · rw [Nat.toDigits_of_lt_base hn, List.foldl_cons, List.foldl_nil]
        simp [read, hexValue?_digitChar hn]
      · rw [Nat.toDigits_of_base_le (by decide) (by omega), List.foldl_append, ih (n / 16) (by omega), List.foldl_cons,
          List.foldl_nil]
        have hlow := hexValue?_digitChar (Nat.mod_lt n (by decide : 0 < 16))
        simp only [read, hlow, Option.bind_eq_bind, Option.bind_some, Option.pure_def]
        rw [Nat.div_add_mod]
  have hzeros : ∀ k : Nat, (List.replicate k '0').foldl read (some 0) = some 0 := by
    intro k
    induction k with
    | zero => rfl
    | succ k ih => rw [List.replicate_succ, List.foldl_cons]; exact ih
  have hne : hexOf width n ≠ [] := List.append_ne_nil_of_right_ne_nil _ Nat.toDigits_ne_nil
  have hfold : hexNat? (hexOf width n) = (hexOf width n).foldl read (some 0) := by
    rw [hexNat?]
    exact hne
  rw [hfold, hexOf, List.foldl_append, hzeros, hdigits]

theorem length_hexOf {width n : Nat} (hwidth : 0 < width) (h : n < 16 ^ width) : (hexOf width n).length = width := by
  have hle := (Nat.length_toDigits_le_iff (by decide : 1 < 16) hwidth).mpr h
  rw [hexOf, List.length_append, List.length_replicate]
  omega

/-! ### Characters between quotes -/

/-- The character that some hexadecimal digits write, and what is behind them. -/
def readHex (width : Nat) (t : Text) : Option (Char × Text) :=
  (hexNat? (t.take width)).map fun n => (Char.ofNat n, t.drop width)

/-- The character that a text between quotes starts with, and what is behind it. -/
def readEscaped : Text → Option (Char × Text)
  | '\\' :: 'n' :: rest => some ('\n', rest)
  | '\\' :: 'r' :: rest => some ('\r', rest)
  | '\\' :: 't' :: rest => some ('\t', rest)
  | '\\' :: 'x' :: rest => readHex 2 rest
  | '\\' :: 'u' :: rest => readHex 4 rest
  | '\\' :: 'U' :: rest => readHex 8 rest
  | '\\' :: c :: rest => some (c, rest)
  | c :: rest => some (c, rest)
  | [] => none

section Quotes

variable {quote c : Char} {s t x y : Text}

theorem readHex_hexOf {width : Nat} (hwidth : 0 < width) (h : c.toNat < 16 ^ width) (rest : Text) :
    readHex width (hexOf width c.toNat ++ rest) = some (c, rest) := by
  have hlength := length_hexOf hwidth h
  rw [readHex, List.take_left' hlength, List.drop_left' hlength, hexNat?_hexOf, Option.map_some, Char.ofNat_toNat]

/-- A character is read back. -/
theorem readEscaped_escapeIn (hquote : quote = '\'' ∨ quote = '"') (c : Char) (rest : Text) :
    readEscaped (escapeIn quote c ++ rest) = some (c, rest) := by
  have hbound : c.toNat < 16 ^ 8 := c.val.toNat_lt
  rw [escapeIn]
  split
  · next hmarked =>
    rcases hmarked with rfl | rfl
    · rcases hquote with rfl | rfl <;> rfl
    · rfl
  next hmarked =>
  split
  · next hc => rw [hc]; rfl
  split
  · next hc => rw [hc]; rfl
  split
  · next hc => rw [hc]; rfl
  split
  · have hplain : c ≠ '\\' := fun hc => hmarked (Or.inr hc)
    rw [List.singleton_append, readEscaped] <;> simp [hplain]
  split
  · next hsmall => exact readHex_hexOf (by decide) hsmall rest
  split
  · next hmiddle => exact readHex_hexOf (by decide) hmiddle rest
  · exact readHex_hexOf (by decide) hbound rest

/-- No character is written with the quote at its start. -/
theorem exists_escapeIn_eq_cons (hquote : quote = '\'' ∨ quote = '"') (c : Char) :
    ∃ d rest, escapeIn quote c = d :: rest ∧ d ≠ quote := by
  have hslash : '\\' ≠ quote := by rcases hquote with rfl | rfl <;> decide
  rw [escapeIn]
  split
  · exact ⟨_, _, rfl, hslash⟩
  next hmarked =>
  split
  · exact ⟨_, _, rfl, hslash⟩
  split
  · exact ⟨_, _, rfl, hslash⟩
  split
  · exact ⟨_, _, rfl, hslash⟩
  split
  · exact ⟨c, [], rfl, fun hc => hmarked (Or.inl hc)⟩
  split
  · exact ⟨_, _, rfl, hslash⟩
  split
  · exact ⟨_, _, rfl, hslash⟩
  · exact ⟨_, _, rfl, hslash⟩

theorem flatMap_escapeIn_inj (hquote : quote = '\'' ∨ quote = '"')
    (h : s.flatMap (escapeIn quote) ++ quote :: x = t.flatMap (escapeIn quote) ++ quote :: y) : s = t ∧ x = y := by
  have hends : ∀ (c : Char) (rest u : Text), escapeIn quote c ++ rest ≠ quote :: u := by
    intro c rest u hsame
    obtain ⟨d, more, hcons, hd⟩ := exists_escapeIn_eq_cons hquote c
    rw [hcons] at hsame
    exact hd (List.cons.inj hsame).1
  induction s generalizing t with
  | nil =>
    cases t with
    | nil => exact ⟨rfl, (List.cons.inj h).2⟩
    | cons d t =>
      rw [List.flatMap_cons, List.append_assoc] at h
      exact absurd h.symm (hends d _ _)
  | cons c s ih =>
    rw [List.flatMap_cons, List.append_assoc] at h
    cases t with
    | nil => exact absurd h (hends c _ _)
    | cons d t =>
      rw [List.flatMap_cons, List.append_assoc] at h
      have hread := congrArg readEscaped h
      rw [readEscaped_escapeIn hquote, readEscaped_escapeIn hquote, Option.some.injEq, Prod.mk.injEq] at hread
      obtain ⟨rfl, hrest⟩ := hread
      obtain ⟨rfl, hxy⟩ := ih hrest
      exact ⟨rfl, hxy⟩

theorem quoteFor_eq (t : Text) : quoteFor t = '\'' ∨ quoteFor t = '"' := by
  rw [quoteFor]
  split
  · exact Or.inr rfl
  · exact Or.inl rfl

/-- A quoted text is known from any text that starts with it. -/
theorem quoted_append_inj (h : quoted s ++ x = quoted t ++ y) : s = t ∧ x = y := by
  simp only [quoted, List.cons_append, List.append_assoc, List.cons.injEq] at h
  obtain ⟨hquote, h⟩ := h
  rw [← hquote] at h
  exact flatMap_escapeIn_inj (quoteFor_eq s) h

theorem head_quoted (t : Text) : ∃ rest, quoted t = quoteFor t :: rest := ⟨_, rfl⟩

end Quotes

end Text

/-! ### Values of a query -/

namespace Value

/-- Whether a value is one that a query gives: null, a text or a list of texts. -/
def IsQueryValue (v : Value) : Prop := v = .null ∨ (∃ t, v = .str t) ∨ ∃ ts : List Text, v = .list (ts.map .str)

/-- What stands behind the first item of a list of texts. -/
def shownRest : List Text → Text
  | [] => []
  | t :: rest => ", ".toList ++ (Text.quoted t ++ shownRest rest)

theorem shownItems_cons (t : Text) (rest : List Text) :
    shownItems ((t :: rest).map .str) = Text.quoted t ++ shownRest rest := by
  induction rest generalizing t with
  | nil => rw [List.map_cons, List.map_nil, shownItems, shown, shownRest, List.append_nil]
  | cons u rest ih =>
    rw [List.map_cons, List.map_cons, shownItems, ← List.map_cons, ih, shown, shownRest, List.append_assoc]

theorem shownRest_inj {ts us : List Text} (h : shownRest ts ++ [']'] = shownRest us ++ [']']) : ts = us := by
  induction ts generalizing us with
  | nil =>
    cases us with
    | nil => rfl
    | cons u us => cases h
  | cons t ts ih =>
    cases us with
    | nil => cases h
    | cons u us =>
      simp only [shownRest, List.append_assoc] at h
      obtain ⟨rfl, hrest⟩ := Text.quoted_append_inj (List.append_cancel_left h)
      rw [ih hrest]

theorem text_list (items : List Value) : (Value.list items).text = '[' :: (shownItems items ++ [']']) := by
  simp only [text, shown, List.cons_append]

/-- A list of texts is known from what it is shown as. -/
theorem text_list_inj {ts us : List Text} (h : (Value.list (ts.map .str)).text = (Value.list (us.map .str)).text) :
    ts = us := by
  have hbracket : ∀ (t : Text) (rest : List Text), [']'] ≠ Text.quoted t ++ shownRest rest ++ [']'] := by
    intro t rest hsame
    obtain ⟨more, hhead⟩ := Text.head_quoted t
    rw [hhead] at hsame
    rcases Text.quoteFor_eq t with hquote | hquote <;> rw [hquote] at hsame <;> cases hsame
  rw [text_list, text_list, List.cons.injEq] at h
  replace h := h.2
  cases ts with
  | nil =>
    cases us with
    | nil => rfl
    | cons u us =>
      rw [shownItems_cons u us] at h
      exact absurd h (hbracket u us)
  | cons t ts =>
    rw [shownItems_cons t ts] at h
    cases us with
    | nil => exact absurd h.symm (hbracket t ts)
    | cons u us =>
      rw [shownItems_cons u us, List.append_assoc, List.append_assoc] at h
      obtain ⟨rfl, hrest⟩ := Text.quoted_append_inj h
      rw [shownRest_inj hrest]

/-- Two values of a query are shown in the same way if they are equal or one is the text that shows the other, and only
then. -/
theorem text_eq_iff {v w : Value} (hv : v.IsQueryValue) (hw : w.IsQueryValue) :
    v.text = w.text ↔ v = w ∨ w = .str v.text ∨ v = .str w.text := by
  constructor
  · intro h
    rcases hv with rfl | ⟨t, rfl⟩ | ⟨ts, rfl⟩
    · rcases hw with rfl | ⟨u, rfl⟩ | ⟨us, rfl⟩
      · exact Or.inl rfl
      · exact Or.inr (Or.inl (congrArg _ h.symm))
      · cases h
    · exact Or.inr (Or.inr (congrArg _ h))
    · rcases hw with rfl | ⟨u, rfl⟩ | ⟨us, rfl⟩
      · cases h
      · exact Or.inr (Or.inl (congrArg _ h.symm))
      · rw [text_list_inj h]
        exact Or.inl rfl
  · rintro (rfl | hw | hv)
    · rfl
    · rw [hw, text_str]
    · rw [hv, text_str]

end Value

end Routing
