import Mathlib
import Routing.Regex.Reader

/-!
# Lexemes of a text that goes on

A written expression is put together from pieces: literal text, captures, parentheses. What a piece is read as
depends on what follows it in three ways only: a count takes the manner after it, an opening brace looks for a count
up to the closing one, and the digits of an escape go on with the digits after them.

`Separate` texts do none of this, and the lexemes of `t ++ y` are those of `t` followed by those of `y`
(`all_append`). Digits may change the escape before them, but no parenthesis and no bar: the `brackets` of the two
texts add up in any case (`brackets_all_append`).
-/

namespace Routing.Regex

/-! ### Runs of characters before more text -/

section Runs

variable {p : Char → Bool} {t y r : Text} {c : Char}

theorem dropWhile_append_of_cons (h : t.dropWhile p = c :: r) : (t ++ y).dropWhile p = c :: (r ++ y) := by
  rw [List.dropWhile_append, h]
  rfl

theorem takeWhile_append_of_cons (h : t.dropWhile p = c :: r) : (t ++ y).takeWhile p = t.takeWhile p := by
  rw [List.takeWhile_append, if_neg]
  intro hlen
  have hsum := congrArg List.length (List.takeWhile_append_dropWhile (p := p) (l := t))
  rw [List.length_append, h, List.length_cons] at hsum
  omega

end Runs

/-! ### Texts that may follow -/

/-- Whether a text goes on no count and no brace before it. -/
structure Follows (y : Text) : Prop where
  manner : y.head? ≠ some '?' ∧ y.head? ≠ some '+'
  brace : (y.dropWhile fun c => c.isDigit || c == ',').head? ≠ some '\x7d'

/-- Whether a text goes on no lexeme before it at all. -/
structure Separate (y : Text) : Prop extends Follows y where
  digit : ∀ c, y.head? = some c → c.isDigit = false

theorem separate_nil : Separate [] := ⟨⟨⟨nofun, nofun⟩, nofun⟩, nofun⟩

/-- A text that starts with a character other than digits, commas, closing braces and manners is separate. -/
theorem separate_cons {c : Char} (h : c.isDigit = false) (hc : c ∉ ['?', '+', ',', '\x7d']) (y : Text) :
    Separate (c :: y) := by
  simp only [List.mem_cons, List.not_mem_nil, or_false, not_or] at hc
  obtain ⟨h₁, h₂, h₃, h₄⟩ := hc
  refine ⟨⟨⟨by simpa using h₁, by simpa using h₂⟩, ?_⟩, ?_⟩
  · have hdrop : ((c.isDigit || c == ',') = true) = False := by simp [h, h₃]
    rw [List.dropWhile_cons, if_neg (by simp [hdrop])]
    simpa using h₄
  · intro d hd
    rw [← Option.some.inj hd]
    exact h

theorem mannerOf_append {t y : Text} (hy : y.head? ≠ some '?' ∧ y.head? ≠ some '+') :
    mannerOf (t ++ y) = ((mannerOf t).1, (mannerOf t).2 ++ y) := by
  cases t with
  | nil =>
    cases y with
    | nil => rfl
    | cons c y =>
      have h₁ : c ≠ '?' := by simpa using hy.1
      have h₂ : c ≠ '+' := by simpa using hy.2
      simp only [List.nil_append]
      unfold mannerOf
      split <;> simp_all
  | cons c t =>
    unfold mannerOf
    split <;> simp_all

theorem countLexeme_append {least : Nat} {most : Option Nat} {t y : Text} (hy : Follows y) :
    countLexeme least most (t ++ y) = ((countLexeme least most t).1, (countLexeme least most t).2 ++ y) := by
  simp only [countLexeme, mannerOf_append hy.manner]

/-! ### Braces -/

/-- The digits that a text starts with are passed over by a search for the end of digits and commas. -/
theorem dropWhile_digits_commas {u v : Text} {c : Char} (h : u.dropWhile Char.isDigit = c :: v) :
    (u.dropWhile fun c => c.isDigit || c == ',') = (c :: v).dropWhile fun c => c.isDigit || c == ',' := by
  have hu : u = u.takeWhile Char.isDigit ++ c :: v := by rw [← h, List.takeWhile_append_dropWhile]
  rw [hu]
  apply List.dropWhile_append_of_pos
  intro d hd
  simp [List.mem_takeWhile_imp hd]

/-- Digits and commas that no closing brace follows are no count. -/
theorem braceCount_eq_none {t : Text} (h : (t.dropWhile fun c => c.isDigit || c == ',').head? ≠ some '\x7d') :
    braceCount t = none := by
  unfold braceCount
  simp only
  split
  · next rest hrest =>
    rw [dropWhile_digits_commas hrest] at h
    exact absurd rfl h
  · next more hmore =>
    split
    · next rest hrest =>
      rw [dropWhile_digits_commas hmore, List.dropWhile_cons, if_pos (by decide), dropWhile_digits_commas hrest] at h
      exact absurd rfl h
    · rfl
  · rfl

/-- Digits and commas that go on to the end leave it to the text that follows to close the braces, and it does not;
otherwise the first character after them decides, whatever follows. -/
theorem braceCount_append {t y : Text} (hy : Follows y) :
    braceCount (t ++ y) = (braceCount t).map fun (low, high, r) => (low, high, r ++ y) := by
  cases hend : t.dropWhile fun c => c.isDigit || c == ',' with
  | nil =>
    rw [braceCount_eq_none (t := t) (by rw [hend]; nofun), braceCount_eq_none]
    · rfl
    · rw [List.dropWhile_append, hend]
      exact hy.brace
  | cons c rest =>
    have hne : ∀ {u : Text}, (u.dropWhile fun c => c.isDigit || c == ',') ≠ [] →
        ∃ d v, u.dropWhile Char.isDigit = d :: v := by
      intro u hu
      cases hd : u.dropWhile Char.isDigit with
      | nil =>
        refine absurd (List.dropWhile_eq_nil_iff.mpr fun d hdu => ?_) hu
        simp [List.dropWhile_eq_nil_iff.mp hd d hdu]
      | cons d v => exact ⟨d, v, rfl⟩
    obtain ⟨d, more, hd⟩ := hne (by rw [hend]; exact List.cons_ne_nil c rest)
    have htail := dropWhile_digits_commas hd ▸ hend
    unfold braceCount
    simp only [dropWhile_append_of_cons hd, takeWhile_append_of_cons hd, hd]
    by_cases hbrace : d = '\x7d'
    · subst hbrace
      cases (t.takeWhile Char.isDigit).isEmpty <;> simp
    · by_cases hcomma : d = ','
      · subst hcomma
        rw [List.dropWhile_cons, if_pos (by decide)] at htail
        obtain ⟨e, others, he⟩ := hne (by rw [htail]; exact List.cons_ne_nil c rest)
        simp only [dropWhile_append_of_cons he, takeWhile_append_of_cons he, he]
        by_cases hclose : e = '\x7d'
        · subst hclose
          simp
        · simp [hclose]
      · simp [hbrace, hcomma]

theorem braceLexeme_append {t y : Text} (hy : Follows y) :
    braceLexeme (t ++ y) = ((braceLexeme t).1, (braceLexeme t).2 ++ y) := by
  unfold braceLexeme
  rw [braceCount_append hy]
  cases braceCount t with
  | none => rfl
  | some found => simp only [Option.map_some, countLexeme_append hy]

/-! ### Parentheses -/

theorem untilChar_append {stop : Char} {t y inside after : Text} (h : untilChar stop t = some (inside, after)) :
    untilChar stop (t ++ y) = some (inside, after ++ y) := by
  unfold untilChar at h ⊢
  split at h
  · next c rest hrest =>
    simp only [Option.some.injEq, Prod.mk.injEq] at h
    simp only [dropWhile_append_of_cons hrest, takeWhile_append_of_cons hrest, h.1, h.2]
  · simp at h

theorem flagsLexeme_append {t y r : Text} {l : Lexeme} (h : flagsLexeme t = some (l, r)) :
    flagsLexeme (t ++ y) = some (l, r ++ y) := by
  unfold flagsLexeme at h ⊢
  simp only at h ⊢
  cases hd : t.dropWhile Char.isAlpha with
  | nil =>
    rw [hd] at h
    split at h <;> simp_all
  | cons c rest =>
    rw [dropWhile_append_of_cons hd, takeWhile_append_of_cons hd]
    rw [hd] at h
    split at h
    · next f rest' hf hcons =>
      obtain ⟨rfl, rfl⟩ := List.cons.inj hcons
      rw [hf]
      split at h <;> simp_all
    · next f rest' hf hcons =>
      obtain ⟨rfl, rfl⟩ := List.cons.inj hcons
      rw [hf]
      split at h <;> simp_all
    · next f more hf hcons =>
      obtain ⟨rfl, rfl⟩ := List.cons.inj hcons
      rw [hf]
      split at h
      · next g rest' hg hmore =>
        simp only [dropWhile_append_of_cons hmore, takeWhile_append_of_cons hmore, hg]
        split at h <;> simp_all
      · simp at h
    · simp at h

/-- What flags are read from starts with a letter for one of them or with a dash. -/
theorem head_of_flagsLexeme {t r : Text} {l : Lexeme} (h : flagsLexeme t = some (l, r)) :
    ∃ c u, t = c :: u ∧ c ∈ ['i', 'm', 's', 'u', '-'] := by
  cases t with
  | nil => simp [flagsLexeme] at h
  | cons c u =>
    refine ⟨c, u, rfl, ?_⟩
    by_cases hc : c.isAlpha
    · unfold flagsLexeme at h
      simp only [List.takeWhile_cons, hc, if_true] at h
      by_cases hu : c = 'u'
      · simp [hu]
      · have hflag : ∃ f, Flags.with {} c = some f := by
          cases hf : Flags.with {} c with
          | some f => exact ⟨f, rfl⟩
          | none =>
            have hnone : flagsOf ((c :: u.takeWhile Char.isAlpha).filter (· != 'u')) = none := by
              simp [flagsOf, hu, hf]
            rw [hnone] at h
            simp at h
        obtain ⟨f, hf⟩ := hflag
        unfold Flags.with at hf
        split at hf <;> simp_all
    · unfold flagsLexeme at h
      simp only [List.takeWhile_cons, List.dropWhile_cons, hc] at h
      split at h <;> simp_all

theorem groupLexeme_append {t y r : Text} {l : Lexeme} (h : groupLexeme t = some (l, r)) :
    groupLexeme (t ++ y) = some (l, r ++ y) := by
  unfold groupLexeme at h
  split at h
  case h_1 | h_2 | h_3 | h_4 =>
    simp only [Option.some.injEq, Prod.mk.injEq] at h
    simp [groupLexeme, h.1, h.2]
  case h_5 rest =>
    obtain ⟨⟨inside, after⟩, hs, he⟩ := Option.map_eq_some_iff.mp h
    simp only [Prod.mk.injEq] at he
    simp [groupLexeme, untilChar_append hs, he.1, he.2]
  case h_6 rest =>
    split at h
    · next name after hs =>
      split at h
      · next hn =>
        simp only [Option.some.injEq, Prod.mk.injEq] at h
        simp [groupLexeme, untilChar_append hs, hn, h.1, h.2]
      · simp at h
    · simp at h
  case h_7 rest =>
    split at h
    · next name after hs =>
      split at h
      · next hn =>
        simp only [Option.some.injEq, Prod.mk.injEq] at h
        simp [groupLexeme, untilChar_append hs, hn, h.1, h.2]
      · simp at h
    · simp at h
  case h_8 =>
    obtain ⟨c, u, rfl, hc⟩ := head_of_flagsLexeme h
    have hflags := flagsLexeme_append (y := y) h
    simp only [List.mem_cons, List.not_mem_nil, or_false] at hc
    rcases hc with rfl | rfl | rfl | rfl | rfl <;> exact hflags

/-! ### Escapes -/

theorem hexPoint_append {width : Nat} {t y r : Text} {n : Nat} (h : hexPoint width t = some (n, r)) :
    hexPoint width (t ++ y) = some (n, r ++ y) := by
  unfold hexPoint at h ⊢
  split at h
  · next hlen =>
    have hle : width ≤ t.length := by rw [List.length_take] at hlen; omega
    rw [List.take_append_of_le_length hle, if_pos hlen, List.drop_append_of_le_length hle]
    split at h
    · split at h
      · next hlt =>
        simp only [Option.some.injEq, Prod.mk.injEq] at h
        simp [← h.1, hlt, ← h.2]
      · simp at h
    · simp at h
  · simp at h

theorem isDigit_of_isOctal {c : Char} (h : isOctal c = true) : c.isDigit = true := by
  simp only [isOctal, Bool.and_eq_true, decide_eq_true_eq] at h
  simp only [Char.isDigit, Bool.and_eq_true, decide_eq_true_eq]
  exact ⟨h.1, Nat.le_trans h.2 (by decide)⟩

/-- More text adds to the octal digits at the start of a text only if there is nothing else in it. -/
theorem octalDigits_append (limit : Nat) (t y : Text) :
    ∃ extra, octalDigits limit (t ++ y) = octalDigits limit t ++ extra ∧ (∃ rest, y = extra ++ rest) ∧
      (∀ c ∈ extra, isOctal c = true) ∧ (extra = [] ∨ t = octalDigits limit t) := by
  induction limit generalizing t with
  | zero => exact ⟨[], by simp [octalDigits], ⟨y, rfl⟩, nofun, Or.inl rfl⟩
  | succ n ih =>
    cases t with
    | nil =>
      refine ⟨octalDigits (n + 1) y, by simp [octalDigits], ?_, ?_, Or.inr (by simp [octalDigits])⟩
      · obtain ⟨rest, hrest⟩ := (List.takeWhile_prefix isOctal).trans (List.take_prefix (n + 1) y)
        exact ⟨rest, hrest.symm⟩
      · intro c hc
        exact List.mem_takeWhile_imp hc
    | cons c t =>
      by_cases hc : isOctal c = true
      · obtain ⟨extra, he, hpre, hall, hor⟩ := ih t
        simp only [octalDigits] at he hor
        refine ⟨extra, ?_, hpre, hall, hor.imp_right fun h => ?_⟩
        · simp [octalDigits, hc, he]
        · simpa [octalDigits, hc] using h
      · exact ⟨[], by simp [octalDigits, hc], ⟨y, rfl⟩, nofun, Or.inl rfl⟩

theorem octalDigits_append_of_rest {limit : Nat} {t y : Text}
    (h : t.drop (octalDigits limit t).length ≠ []) : octalDigits limit (t ++ y) = octalDigits limit t := by
  obtain ⟨extra, he, -, -, hor⟩ := octalDigits_append limit t y
  rcases hor with rfl | ht
  · simpa using he
  · rw [← ht, List.drop_length] at h
    exact absurd rfl h

theorem length_octalDigits_le (limit : Nat) (t : Text) : (octalDigits limit t).length ≤ t.length :=
  ((List.takeWhile_prefix isOctal).trans (List.take_prefix limit t)).length_le

/-! ### Sets -/

/-- A member of a set that is not the last thing in a text is the same whatever follows. -/
theorem escapeAtom_append {c : Char} {t y r : Text} {a : ClassAtom} (h : escapeAtom c t = some (a, r)) (hr : r ≠ []) :
    escapeAtom c (t ++ y) = some (a, r ++ y) := by
  unfold escapeAtom at h ⊢
  split at h
  · simp only [Option.some.injEq, Prod.mk.injEq] at h
    simp [h.1, h.2]
  · simp only [Option.some.injEq, Prod.mk.injEq] at h
    simp [h.1, h.2]
  · obtain ⟨⟨n, s⟩, hs, he⟩ := Option.map_eq_some_iff.mp h
    simp only [Prod.mk.injEq] at he
    simp [hexPoint_append hs, he.1, he.2]
  · split at h
    · simp_all
    · split at h
      · next hb ho =>
        simp only at h
        split at h
        · next hle =>
          simp only [Option.some.injEq, Prod.mk.injEq] at h
          have hdig : octalDigits 2 (t ++ y) = octalDigits 2 t :=
            octalDigits_append_of_rest (by rw [h.2]; exact hr)
          simp only [hb, ho, hdig, if_true, if_false, hle]
          rw [List.drop_append_of_le_length (length_octalDigits_le 2 t), h.1, h.2]
        · simp at h
      · split at h
        · simp at h
        · simp_all

theorem classAtom_append {t y r : Text} {a : ClassAtom} (h : classAtom t = some (a, r)) (hr : r ≠ []) :
    classAtom (t ++ y) = some (a, r ++ y) := by
  unfold classAtom at h
  split at h
  · simp at h
  · simp at h
  · exact escapeAtom_append h hr
  · next c rest hslash hne =>
    simp only [Option.some.injEq, Prod.mk.injEq] at h
    obtain ⟨rfl, rfl⟩ := h
    have hc : c ≠ '\\' := by
      rintro rfl
      cases rest with
      | nil => exact hslash rfl rfl
      | cons d others => exact hne d others rfl rfl
    rw [List.cons_append]
    unfold classAtom
    split <;> simp_all

theorem classItems_append {first : Bool} {t y r : Text} {items : List ClassItem}
    (h : classItems first t = some (items, r)) : classItems first (t ++ y) = some (items, r ++ y) := by
  have hne : t ≠ [] := by
    rintro rfl
    simp [classItems, classAtom] at h
  fun_induction classItems first t generalizing items r with
  | case1 first t hc =>
    simp only [Option.some.injEq, Prod.mk.injEq] at h
    obtain ⟨rfl, rfl⟩ := h
    rw [classItems, List.head?_append_of_ne_nil _ hne, if_pos hc]
    cases t with
    | nil => exact absurd rfl hne
    | cons c t => rfl
  | case2 => simp at h
  | case3 => simp at h
  | case4 first t hc a after ha =>
    simp only [Option.some.injEq, Prod.mk.injEq] at h
    obtain ⟨rfl, rfl⟩ := h
    have ha' := classAtom_append (y := y) ha (by simp)
    rw [classItems, List.head?_append_of_ne_nil _ hne, if_neg hc]
    simp only [List.cons_append] at ha'
    split <;> simp_all
  | case5 => simp at h
  | case6 first t hc more hm after low high ha hb hle _ _ ih =>
    obtain ⟨⟨others, s⟩, hs, he⟩ := Option.map_eq_some_iff.mp h
    simp only [Prod.mk.injEq] at he
    -- the range ends inside the class, so neither end is read from what follows
    have hafter : after ≠ [] := by
      rintro rfl
      simp [classItems, classAtom] at hs
    have hmore : more ≠ [] := by
      rintro rfl
      simp [classAtom] at hb
    have ha' := classAtom_append (y := y) ha (List.cons_ne_nil '-' more)
    have hb' := classAtom_append (y := y) hb hafter
    have hih := ih hs hafter
    rw [classItems, List.head?_append_of_ne_nil _ hne, if_neg hc]
    simp only [List.cons_append] at ha'
    split
    · simp_all
    · simp_all
    · next a' after' hd =>
      rw [ha'] at hd
      simp only [Option.some.injEq, Prod.mk.injEq, List.cons.injEq, true_and] at hd
      cases more with
      | nil => exact absurd rfl hmore
      | cons d others' => exact absurd (by simpa using hd.2) (fun hd' : d = ']' ∧ _ => hm _ (by rw [hd'.1]))
    · next a' more' hne' hd =>
      rw [ha'] at hd
      simp only [Option.some.injEq, Prod.mk.injEq, List.cons.injEq, true_and] at hd
      obtain ⟨rfl, rfl⟩ := hd
      split
      · simp_all
      · next b after' hb'' =>
        rw [hb'] at hb''
        simp only [Option.some.injEq, Prod.mk.injEq] at hb''
        obtain ⟨rfl, rfl⟩ := hb''
        simp [hle, hih, he.1, he.2]
    · simp_all
  | case7 => simp at h
  | case8 => simp at h
  | case9 first t hc a c rest h₁ h₂ ha ih =>
    obtain ⟨⟨others, s⟩, hs, he⟩ := Option.map_eq_some_iff.mp h
    simp only [Prod.mk.injEq] at he
    have ha' := classAtom_append (y := y) ha (List.cons_ne_nil c rest)
    have hih := ih hs (List.cons_ne_nil c rest)
    have hdash : ¬ '-' = c := by
      rintro rfl
      exact h₂ rfl
    rw [classItems, List.head?_append_of_ne_nil _ hne, if_neg hc]
    simp only [List.cons_append] at ha' hih
    split <;> simp_all

/-! ### Parentheses and bars -/

/-- What structures an expression. -/
inductive Bracket where
  | opening
  | closing
  | bar
  deriving DecidableEq, Repr

/-- The bracket that a lexeme is, if it is one. -/
def Lexeme.bracket? : Lexeme → Option Bracket
  | .opening _ => some .opening
  | .closing => some .closing
  | .bar => some .bar
  | _ => none

/-- The brackets among some lexemes. -/
def brackets (lexemes : List Lexeme) : List Bracket := lexemes.filterMap Lexeme.bracket?

theorem brackets_append (a b : List Lexeme) : brackets (a ++ b) = brackets a ++ brackets b := List.filterMap_append

theorem brackets_cons (l : Lexeme) (lexemes : List Lexeme) :
    brackets (l :: lexemes) = l.bracket?.toList ++ brackets lexemes := by
  rw [brackets, List.filterMap_cons]
  cases l.bracket? <;> rfl

/-- Whether a lexeme `l` that is read before `r` is read before `r ++ y` too when `y` is put at the end: either
exactly so, or it is an escape at the very end that takes some digits of `y` as well. The escape of a character is that
of another one then. -/
def GoesOn (l : Lexeme) (r y : Text) (found : Option (Lexeme × Text)) : Prop :=
  found = some (l, r ++ y) ∨
    r = [] ∧ l.bracket? = none ∧ (∃ c, y.head? = some c ∧ c.isDigit = true) ∧
      (∀ l' r', found = some (l', r') →
        l'.bracket? = none ∧ ∃ digits, (∀ c ∈ digits, c.isDigit = true) ∧ y = digits ++ r') ∧
      ((∃ index, l = .backref index) ∨ ∃ n m r', l = .point n ∧ found = some (.point m, r'))

theorem numberEscape_append {d : Char} {t y r : Text} {l : Lexeme} (h : numberEscape d t = some (l, r)) :
    GoesOn l r y (numberEscape d (t ++ y)) := by
  -- only where all digits are used up may those of the next text belong to the number
  match t with
  | [] =>
    simp only [numberEscape, Option.some.injEq, Prod.mk.injEq] at h
    obtain ⟨rfl, rfl⟩ := h
    match y with
    | [] => exact Or.inl rfl
    | [e] =>
      by_cases he : e.isDigit = true
      · refine Or.inr ⟨rfl, rfl, ⟨e, rfl, he⟩, ?_, Or.inl ⟨_, rfl⟩⟩
        intro l' r' hf
        simp only [List.nil_append, numberEscape, he, if_true, Option.some.injEq, Prod.mk.injEq] at hf
        obtain ⟨rfl, rfl⟩ := hf
        exact ⟨rfl, [e], by simpa using he, rfl⟩
      · exact Or.inl (by simp [numberEscape, he])
    | e :: f :: rest =>
      by_cases he : e.isDigit = true
      · refine Or.inr ⟨rfl, rfl, ⟨e, rfl, he⟩, ?_, Or.inl ⟨_, rfl⟩⟩
        intro l' r' hf
        simp only [List.nil_append, numberEscape, he, if_true] at hf
        split at hf
        · next hoct =>
          simp only [Bool.and_eq_true] at hoct
          split at hf
          · simp only [Option.some.injEq, Prod.mk.injEq] at hf
            obtain ⟨rfl, rfl⟩ := hf
            exact ⟨rfl, [e, f], by simp [he, isDigit_of_isOctal hoct.2], rfl⟩
          · simp at hf
        · simp only [Option.some.injEq, Prod.mk.injEq] at hf
          obtain ⟨rfl, rfl⟩ := hf
          exact ⟨rfl, [e], by simpa using he, rfl⟩
      · exact Or.inl (by simp [numberEscape, he])
  | [e] =>
    by_cases he : e.isDigit = true
    · simp only [numberEscape, he, if_true, Option.some.injEq, Prod.mk.injEq] at h
      obtain ⟨rfl, rfl⟩ := h
      match y with
      | [] => exact Or.inl (by simp [numberEscape, he])
      | f :: rest =>
        by_cases hoct : (isOctal d && isOctal e && isOctal f) = true
        · have hf := isDigit_of_isOctal (Bool.and_eq_true_iff.mp hoct).2
          refine Or.inr ⟨rfl, rfl, ⟨f, rfl, hf⟩, ?_, Or.inl ⟨_, rfl⟩⟩
          intro l' r' hfound
          simp only [List.cons_append, List.nil_append, numberEscape, he, hoct, if_true] at hfound
          split at hfound
          · simp only [Option.some.injEq, Prod.mk.injEq] at hfound
            obtain ⟨rfl, rfl⟩ := hfound
            exact ⟨rfl, [f], by simpa using hf, rfl⟩
          · simp at hfound
        · exact Or.inl (by simp only [List.cons_append, List.nil_append, numberEscape, he, hoct]; rfl)
    · simp only [numberEscape, he, Bool.false_eq_true, if_false, Option.some.injEq, Prod.mk.injEq] at h
      obtain ⟨rfl, rfl⟩ := h
      cases y <;> exact Or.inl (by simp [numberEscape, he])
  | e :: f :: rest =>
    apply Or.inl
    simp only [List.cons_append, numberEscape] at h ⊢
    split at h
    · next he =>
      simp only [he, if_true]
      split at h
      · next hoct =>
        simp only [hoct, if_true]
        split at h
        · next hle =>
          simp only [Option.some.injEq, Prod.mk.injEq] at h
          simp [hle, h.1, h.2]
        · simp at h
      · next hoct =>
        simp only [Option.some.injEq, Prod.mk.injEq] at h
        simp [hoct, h.1, ← h.2]
    · next he =>
      simp only [Option.some.injEq, Prod.mk.injEq] at h
      simp [he, h.1, ← h.2]

theorem escapeLexeme_append {c : Char} {t y r : Text} {l : Lexeme} (h : escapeLexeme c t = some (l, r)) :
    GoesOn l r y (escapeLexeme c (t ++ y)) := by
  unfold escapeLexeme at h ⊢
  split at h
  · simp only [Option.some.injEq, Prod.mk.injEq] at h
    exact Or.inl (by simp [h.1, h.2])
  · simp only [Option.some.injEq, Prod.mk.injEq] at h
    exact Or.inl (by simp [h.1, h.2])
  · simp only [Option.some.injEq, Prod.mk.injEq] at h
    exact Or.inl (by simp [h.1, h.2])
  · obtain ⟨⟨n, s⟩, hs, he⟩ := Option.map_eq_some_iff.mp h
    simp only [Prod.mk.injEq] at he
    exact Or.inl (by simp [hexPoint_append hs, he.1, he.2])
  · split at h
    · next hzero =>
      simp only [Option.some.injEq, Prod.mk.injEq] at h
      -- after a zero two more octal digits count, which may be those of the next text
      obtain ⟨extra, hext, ⟨rest, hy⟩, hall, hor⟩ := octalDigits_append 2 t y
      simp only [hzero, if_true, hext]
      by_cases hnil : extra = []
      · subst hnil
        apply Or.inl
        rw [List.append_nil, List.drop_append_of_le_length (length_octalDigits_le 2 t), h.1, h.2]
      · have ht := hor.resolve_left hnil
        refine Or.inr ⟨?_, ?_, ?_, ?_, Or.inr ⟨_, _, _, h.1.symm, rfl⟩⟩
        · rw [← h.2, ← ht, List.drop_length]
        · rw [← h.1]; rfl
        · cases extra with
          | nil => exact absurd rfl hnil
          | cons d others => exact ⟨d, by rw [hy]; rfl, isDigit_of_isOctal (hall d (by simp))⟩
        · intro l' r' hf
          simp only [Option.some.injEq, Prod.mk.injEq] at hf
          refine ⟨by rw [← hf.1]; rfl, extra, fun d hd => isDigit_of_isOctal (hall d hd), ?_⟩
          rw [← hf.2, ← ht, hy, ← List.append_assoc, List.drop_left]
    · next hzero =>
      simp only [hzero, if_false]
      split at h
      · next hdig =>
        simp only [hdig, if_true]
        exact numberEscape_append h
      · next hdig =>
        simp only [hdig]
        split at h
        · simp at h
        · next halpha =>
          simp only [Option.some.injEq, Prod.mk.injEq] at h
          exact Or.inl (by simp [halpha, h.1, h.2])

/-! ### One lexeme -/

/-- The characters that start a lexeme of their own. -/
def lexemeStarts : List Char := ['\\', '.', '^', '$', '[', '(', ')', '|', '*', '+', '?', '\x7b']

/-- Every other character stands for itself. -/
theorem next_point {c : Char} (h : c ∉ lexemeStarts) (rest : Text) :
    Lexeme.next (c :: rest) = some (.point c.toNat, rest) := by
  simp only [lexemeStarts, List.mem_cons, not_or, List.not_mem_nil, not_false_eq_true, and_true] at h
  rw [Lexeme.next] <;> simp_all

theorem next_bracket {c : Char} (h : c ≠ '^') (rest : Text) :
    Lexeme.next ('[' :: c :: rest) =
      (classItems true (c :: rest)).map fun (items, after) => (.set items false, after) := by
  rw [Lexeme.next]
  intro more hm
  exact h (List.cons.inj hm).1

theorem next_parenthesis {rest : Text} (h : rest.head? ≠ some '?') :
    Lexeme.next ('(' :: rest) = some (.opening (.capturing none), rest) := by
  rw [Lexeme.next]
  rintro more rfl
  exact h rfl

/-- The first lexeme of a text is the first one of the longer text too. -/
theorem next_append {t y r : Text} {l : Lexeme} (hy : Follows y) (h : Lexeme.next t = some (l, r)) :
    GoesOn l r y (Lexeme.next (t ++ y)) := by
  unfold Lexeme.next at h
  split at h
  case h_1 => simp at h
  case h_2 => simp at h
  case h_3 c rest => exact escapeLexeme_append h
  case h_4 | h_5 | h_6 | h_11 | h_12 =>
    simp only [Option.some.injEq, Prod.mk.injEq] at h
    obtain ⟨rfl, rfl⟩ := h
    exact Or.inl rfl
  case h_7 rest =>
    obtain ⟨⟨items, after⟩, hs, he⟩ := Option.map_eq_some_iff.mp h
    simp only [Prod.mk.injEq] at he
    apply Or.inl
    simp only [List.cons_append, Lexeme.next, classItems_append hs, Option.map_some, he.1, he.2]
  case h_8 rest hcaret =>
    obtain ⟨⟨items, after⟩, hs, he⟩ := Option.map_eq_some_iff.mp h
    simp only [Prod.mk.injEq] at he
    apply Or.inl
    cases rest with
    | nil => simp [classItems, classAtom] at hs
    | cons c more =>
      -- a caret would make it the complement
      have hc : c ≠ '^' := fun hc => hcaret more (by rw [hc])
      have hs' := classItems_append (y := y) hs
      simp only [List.cons_append] at hs' ⊢
      simp only [next_bracket hc, hs', Option.map_some, he.1, he.2]
  case h_9 rest =>
    apply Or.inl
    simp only [List.cons_append, Lexeme.next, groupLexeme_append h]
  case h_10 rest hq =>
    simp only [Option.some.injEq, Prod.mk.injEq] at h
    obtain ⟨rfl, rfl⟩ := h
    have hhead : (rest ++ y).head? ≠ some '?' := by
      cases rest with
      | nil => exact hy.manner.1
      | cons c more => exact fun hc => hq more (by rw [Option.some.inj hc])
    exact Or.inl (next_parenthesis hhead)
  case h_13 rest | h_14 rest | h_15 rest =>
    simp only [Option.some.injEq] at h
    apply Or.inl
    simp only [List.cons_append, Lexeme.next, countLexeme_append hy, h]
  case h_16 rest =>
    simp only [Option.some.injEq] at h
    apply Or.inl
    simp only [List.cons_append, Lexeme.next, braceLexeme_append hy, h]
  case h_17 c rest hslash hescape _ _ _ _ _ _ _ _ _ _ _ _ _ =>
    simp only [Option.some.injEq, Prod.mk.injEq] at h
    obtain ⟨rfl, rfl⟩ := h
    have hc : c ≠ '\\' := by
      rintro rfl
      cases rest with
      | nil => exact hslash rfl rfl
      | cons d more => exact hescape d more rfl rfl
    exact Or.inl (next_point (by simp_all [lexemeStarts]) (rest ++ y))

/-! ### All lexemes -/

theorem all_nil : Lexeme.all [] = [] := by
  rw [Lexeme.all]
  rfl

theorem all_of_next {t r : Text} {l : Lexeme} (h : Lexeme.next t = some (l, r)) :
    Lexeme.all t = l :: Lexeme.all r := by
  have hne : t ≠ [] := by
    rintro rfl
    simp [Lexeme.next] at h
  rw [Lexeme.all, if_neg (by simpa using hne)]
  split <;> simp_all

theorem all_of_next_eq_none {t : Text} (hne : t ≠ []) (h : Lexeme.next t = none) : Lexeme.all t = [.broken] := by
  rw [Lexeme.all, if_neg (by simpa using hne)]
  split <;> simp_all

/-- Whether a text is lexemes all through. -/
def Lexes (t : Text) : Prop := .broken ∉ Lexeme.all t

/-- A text of lexemes is empty, or a lexeme and then a text of lexemes. -/
theorem Lexes.cases {t : Text} (h : Lexes t) :
    t = [] ∨ ∃ l r, Lexeme.next t = some (l, r) ∧ Lexes r := by
  rcases t with - | ⟨c, t⟩
  · exact Or.inl rfl
  · apply Or.inr
    cases hn : Lexeme.next (c :: t) with
    | none =>
      rw [Lexes, all_of_next_eq_none (by simp) hn] at h
      exact absurd (List.mem_singleton.mpr rfl) h
    | some found =>
      refine ⟨found.1, found.2, rfl, ?_⟩
      rw [Lexes, all_of_next hn] at h
      intro hb
      exact h (List.mem_cons_of_mem _ hb)

/-- The lexemes of two texts side by side, if the second one goes on no lexeme of the first. -/
theorem all_append {t y : Text} (ht : Lexes t) (hy : Separate y) :
    Lexeme.all (t ++ y) = Lexeme.all t ++ Lexeme.all y := by
  induction hn : t.length using Nat.strongRecOn generalizing t with
  | _ n ih =>
    rcases ht.cases with rfl | ⟨l, r, hnext, hr⟩
    · rw [all_nil]; rfl
    · have hlt := length_next hnext
      rcases next_append hy.toFollows hnext with hfound | ⟨-, -, ⟨c, hc, hdigit⟩, -⟩
      · rw [all_of_next hnext, all_of_next hfound, List.cons_append, ih r.length (hn ▸ hlt) hr rfl]
      · rw [hy.digit c hc] at hdigit
        exact absurd hdigit Bool.false_ne_true

theorem next_digit {c : Char} (h : c.isDigit = true) (rest : Text) :
    Lexeme.next (c :: rest) = some (.point c.toNat, rest) := by
  apply next_point
  intro hc
  simp only [lexemeStarts, List.mem_cons, List.not_mem_nil, or_false] at hc
  rcases hc with rfl | rfl | rfl | rfl | rfl | rfl | rfl | rfl | rfl | rfl | rfl | rfl <;> exact absurd h (by decide)

theorem all_digits {digits y : Text} (h : ∀ c ∈ digits, c.isDigit = true) :
    Lexeme.all (digits ++ y) = digits.map (fun c => .point c.toNat) ++ Lexeme.all y := by
  induction digits with
  | nil => rfl
  | cons c digits ih =>
    rw [List.forall_mem_cons] at h
    rw [List.cons_append, all_of_next (next_digit h.1 _), ih h.2]
    rfl

/-- Digits are no brackets. -/
theorem brackets_all_digits {digits y : Text} (h : ∀ c ∈ digits, c.isDigit = true) :
    brackets (Lexeme.all (digits ++ y)) = brackets (Lexeme.all y) ∧ (Lexes y → Lexes (digits ++ y)) := by
  have hnone : brackets (digits.map fun c => .point c.toNat) = [] := by simp [brackets, Lexeme.bracket?]
  refine ⟨by rw [all_digits h, brackets_append, hnone, List.nil_append], fun hy => ?_⟩
  rw [Lexes, all_digits h, List.mem_append, not_or]
  exact ⟨by simp, hy⟩

/-- The brackets of two texts side by side, if both together are lexemes all through. -/
theorem brackets_all_append {t y : Text} (ht : Lexes t) (hy : Follows y) (hty : Lexes (t ++ y)) :
    brackets (Lexeme.all (t ++ y)) = brackets (Lexeme.all t) ++ brackets (Lexeme.all y) ∧ Lexes y := by
  induction hn : t.length using Nat.strongRecOn generalizing t with
  | _ n ih =>
    rcases ht.cases with rfl | ⟨l, r, hnext, hr⟩
    · rw [all_nil]; exact ⟨rfl, hty⟩
    · have hlt := length_next hnext
      rcases next_append hy hnext with hfound | ⟨rfl, hl, -, hmore, -⟩
      · have hry : Lexes (r ++ y) := by
          rw [Lexes, all_of_next hfound] at hty
          intro hb
          exact hty (List.mem_cons_of_mem _ hb)
        obtain ⟨hb, hly⟩ := ih r.length (hn ▸ hlt) hr hry rfl
        refine ⟨?_, hly⟩
        rw [all_of_next hnext, all_of_next hfound]
        simp only [brackets, List.filterMap_cons] at hb ⊢
        cases l.bracket? <;> simp [hb]
      · -- an escape at the end takes some digits of `y`, and is no bracket before or after
        rcases hty.cases with hnil | ⟨l', r', hfound, hr'⟩
        · rw [(List.append_eq_nil_iff.mp hnil).1] at hnext
          simp [Lexeme.next] at hnext
        · obtain ⟨hl', digits, hdigits, rfl⟩ := hmore l' r' hfound
          obtain ⟨hb, hlex⟩ := brackets_all_digits (y := r') hdigits
          refine ⟨?_, hlex hr'⟩
          rw [all_of_next hfound, all_of_next hnext, all_nil, hb]
          simp [brackets, hl, hl']

end Routing.Regex
