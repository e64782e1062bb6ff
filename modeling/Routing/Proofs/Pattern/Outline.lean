import Routing.Proofs.Pattern.Rule
import Routing.Proofs.Regex.Lexing

/-!
# Braces and outlines

In a pattern whose opening braces are all closed (`Braced`), a variable is the same whatever follows it
(`variableAt_append`), and the scan for groups goes on from where it ended when more text follows (`Part.scan_append`).
-/

namespace Routing.Pattern

/-- Whether every opening brace has one that closes it. -/
def Braced (p : Text) : Prop := ∀ before rest, p = before ++ '\x7b' :: rest → (closingBrace 0 rest).isSome = true

theorem Braced.suffix {a b : Text} (h : Braced (a ++ b)) : Braced b := by
  rintro before rest rfl
  exact h (a ++ before) rest (by rw [List.append_assoc])

theorem Braced.of_cons {c : Char} {p : Text} (h : Braced (c :: p)) : Braced p := Braced.suffix (a := [c]) h

theorem braced_cons {c : Char} {p : Text} :
    Braced (c :: p) ↔ (c = '\x7b' → (closingBrace 0 p).isSome = true) ∧ Braced p := by
  refine ⟨fun h => ⟨fun hc => h [] p (by rw [hc]; rfl), h.of_cons⟩, ?_⟩
  rintro ⟨hc, hp⟩ before rest heq
  cases before with
  | nil =>
    obtain ⟨rfl, rfl⟩ := List.cons.inj heq
    exact hc rfl
  | cons a before => exact hp before rest (List.cons.inj heq).2

instance decidableBraced : (p : Text) → Decidable (Braced p)
  | [] => isTrue fun before rest h => by simp at h
  | c :: p =>
    have := decidableBraced p
    decidable_of_iff _ (braced_cons (c := c)).symm

/-! ### Braces -/

theorem closingBrace_append {depth : Nat} {t inside after : Text} (h : closingBrace depth t = some (inside, after))
    (y : Text) : closingBrace depth (t ++ y) = some (inside, after ++ y) := by
  induction t generalizing depth inside with
  | nil => simp [closingBrace] at h
  | cons c t ih =>
    rw [closingBrace] at h
    rw [List.cons_append, closingBrace]
    split at h
    · next hc =>
      simp only [Option.some.injEq, Prod.mk.injEq] at h
      rw [if_pos hc, ← h.1, ← h.2]
    · next hc =>
      obtain ⟨⟨i, a⟩, hfound, he⟩ := Option.map_eq_some_iff.mp h
      simp only [Prod.mk.injEq] at he
      obtain ⟨rfl, rfl⟩ := he
      rw [if_neg hc]
      simp only [ih hfound, Option.map_some]

theorem eq_of_closingBrace {depth : Nat} {t inside after : Text} (h : closingBrace depth t = some (inside, after)) :
    t = inside ++ '\x7d' :: after := by
  induction t generalizing depth inside with
  | nil => simp [closingBrace] at h
  | cons c t ih =>
    rw [closingBrace] at h
    split at h
    · next hc =>
      simp only [Option.some.injEq, Prod.mk.injEq] at h
      rw [← h.1, ← h.2, hc.1]
      rfl
    · obtain ⟨⟨i, a⟩, hfound, he⟩ := Option.map_eq_some_iff.mp h
      simp only [Prod.mk.injEq] at he
      obtain ⟨rfl, rfl⟩ := he
      rw [ih hfound]
      rfl

/-- The number of open braces is back to none after the brace that closes them. -/
theorem foldl_of_closingBrace {depth : Nat} {t inside after : Text} (h : closingBrace depth t = some (inside, after)) :
    t.foldl Part.bracesAfter (depth + 1) = after.foldl Part.bracesAfter 0 := by
  induction t generalizing depth inside with
  | nil => simp [closingBrace] at h
  | cons c t ih =>
    rw [closingBrace] at h
    split at h
    · next hc =>
      simp only [Option.some.injEq, Prod.mk.injEq] at h
      rw [List.foldl_cons, ← h.2, hc.1, hc.2]
      rfl
    · next hc =>
      obtain ⟨⟨i, a⟩, hfound, he⟩ := Option.map_eq_some_iff.mp h
      simp only [Prod.mk.injEq] at he
      obtain ⟨-, rfl⟩ := he
      rw [List.foldl_cons, ← ih hfound]
      congr 1
      simp only [Part.bracesAfter]
      split
      · next hopen => simp [hopen]
      · split
        · next hclose =>
          have : depth ≠ 0 := fun h0 => hc ⟨hclose, h0⟩
          omega
        · rfl

theorem foldl_of_braced {p : Text} (h : Braced p) : p.foldl Part.bracesAfter 0 = 0 := by
  induction hn : p.length using Nat.strongRecOn generalizing p with
  | _ n ih =>
    cases p with
    | nil => rfl
    | cons c p =>
      rw [List.foldl_cons]
      by_cases hc : c = '\x7b'
      · subst hc
        obtain ⟨⟨inside, after⟩, hclose⟩ := Option.isSome_iff_exists.mp (h [] p rfl)
        have hlt := length_closingBrace hclose
        have hafter : Braced after := by
          have hp := h.of_cons
          rw [eq_of_closingBrace hclose, List.append_cons] at hp
          exact hp.suffix
        have := foldl_of_closingBrace hclose
        rw [show Part.bracesAfter 0 '\x7b' = 0 + 1 from rfl, this]
        exact ih after.length (by rw [← hn, List.length_cons]; omega) hafter rfl
      · have hzero : Part.bracesAfter 0 c = 0 := by simp [Part.bracesAfter, hc]
        rw [hzero]
        exact ih p.length (by rw [← hn, List.length_cons]; omega) h.of_cons rfl

/-! ### Variables -/

theorem closingBrace_word {c : Char} (h : Text.isWord c = true) (t : Text) :
    (closingBrace 0 (c :: t)).isSome = (closingBrace 0 t).isSome := by
  have hbrace : c ≠ '\x7b' ∧ c ≠ '\x7d' := by
    constructor <;>
    · rintro rfl
      exact absurd h (by decide)
  rw [closingBrace, if_neg fun hc => hbrace.2 hc.1]
  simp [hbrace.1, hbrace.2]

theorem closingBrace_dropWhile (t : Text) :
    (closingBrace 0 (t.dropWhile Text.isWord)).isSome = (closingBrace 0 t).isSome := by
  induction t with
  | nil => rfl
  | cons c t ih =>
    rw [List.dropWhile_cons]
    split
    · next hc => rw [ih, closingBrace_word hc]
    · rfl

/-- What a variable is after its name. -/
theorem variableAt_of_dropWhile (default : Text) {t rest : Text} {c : Char} (h : t.dropWhile Text.isWord = c :: rest) :
    variableAt default t =
      if (t.takeWhile Text.isWord).isEmpty then none
      else if c = '\x7d' then some (t.takeWhile Text.isWord, default, rest)
      else if c = ':' then (closingBrace 0 rest).map fun (capture, after) =>
        (t.takeWhile Text.isWord, if capture.isEmpty then default else capture, after)
      else none := by
  unfold variableAt
  simp only [h]
  split
  · rfl
  · split
    · next heq => simp_all
    · next heq => simp_all
    · next hbrace hcolon =>
      rw [if_neg, if_neg]
      · rintro rfl
        exact hcolon rest rfl
      · rintro rfl
        exact hbrace rest rfl

/-- A variable in a text with a closing brace is the same whatever follows. -/
theorem variableAt_append (default : Text) {t : Text} (h : (closingBrace 0 t).isSome = true) (y : Text) :
    variableAt default (t ++ y) =
      (variableAt default t).map fun (name, capture, after) => (name, capture, after ++ y) := by
  rw [← closingBrace_dropWhile] at h
  cases hd : t.dropWhile Text.isWord with
  | nil => simp [hd, closingBrace] at h
  | cons c rest =>
    rw [variableAt_of_dropWhile default hd, variableAt_of_dropWhile default (Regex.dropWhile_append_of_cons hd),
      Regex.takeWhile_append_of_cons hd]
    split
    · rfl
    · split
      · rfl
      · split
        · next hcolon =>
          have hmore : (closingBrace 0 rest).isSome = true := by
            rw [hd, hcolon, closingBrace] at h
            simpa using h
          obtain ⟨⟨inside, after⟩, hclose⟩ := Option.isSome_iff_exists.mp hmore
          rw [hclose, closingBrace_append hclose]
          rfl
        · rfl

theorem suffix_of_variableAt {default t name capture after : Text}
    (h : variableAt default t = some (name, capture, after)) : after <:+ t := by
  have hdrop : t.dropWhile Text.isWord <:+ t := List.dropWhile_suffix _
  unfold variableAt at h
  simp only at h
  split at h
  · cases h
  · split at h
    · next heq =>
      simp only [Option.some.injEq, Prod.mk.injEq] at h
      rw [← h.2.2]
      exact (List.suffix_cons _ _).trans (heq ▸ hdrop)
    · next more heq =>
      obtain ⟨⟨i, a⟩, hclose, he⟩ := Option.map_eq_some_iff.mp h
      simp only [Prod.mk.injEq] at he
      rw [← he.2.2]
      have hmore : a <:+ more := by
        rw [eq_of_closingBrace hclose]
        exact ⟨i ++ ['\x7d'], by simp⟩
      exact hmore.trans ((List.suffix_cons _ _).trans (heq ▸ hdrop))
    · cases h

/-! ### Tokens -/

theorem regexOf_append (inside : Bool) (a b : List Token) :
    regexOf inside (a ++ b) = regexOf inside a ++ regexOf inside b := by
  induction a using tokens_induction with
  | nil => simp [regexOf]
  | literal text rest ih => rw [List.cons_append, regexOf, regexOf, ih, List.append_assoc]
  | var name capture rest ih => rw [List.cons_append, regexOf, regexOf, ih, List.append_assoc]
  | group suffix binds raw children rest ihc ih => rw [List.cons_append, regexOf, regexOf, ih, List.append_assoc]

theorem escape_append (a b : Text) : escape (a ++ b) = escape a ++ escape b := by simp [escape]

/-! ### Outlines -/

namespace Part

theorem readSuffix_append {t y : Text} (hy : y.head? ≠ some '*' ∧ y.head? ≠ some '+') :
    readSuffix (t ++ y) = ((readSuffix t).1, (readSuffix t).2 ++ y) := by
  cases t with
  | nil =>
    cases y with
    | nil => rfl
    | cons c y =>
      have h₁ : c ≠ '*' := by simpa using hy.1
      have h₂ : c ≠ '+' := by simpa using hy.2
      simp [readSuffix, h₁, h₂]
  | cons c t =>
    by_cases h₁ : c = '*'
    · subst h₁; rfl
    · by_cases h₂ : c = '+'
      · subst h₂; rfl
      · simp [readSuffix, h₁, h₂]

theorem suffix_readSuffix (t : Text) : (readSuffix t).2 <:+ t := by
  unfold readSuffix
  split
  · exact List.suffix_cons _ _
  · exact List.suffix_cons _ _
  · exact List.suffix_refl _

theorem foldl_readSuffix (t : Text) : (readSuffix t).2.foldl bracesAfter 0 = t.foldl bracesAfter 0 := by
  unfold readSuffix
  split <;> rfl

theorem scan_cons (braces : Nat) (inner : Open) (outer : List Open) (c : Char) (rest : Text) :
    scan braces inner outer (c :: rest) =
      if 0 < braces ∨ c = '\x7b' then scan (bracesAfter braces c) (inner.push c) outer rest
      else if c = '[' then scan 0 {} (inner.rest :: outer) rest
      else if c = ']' then
        match outer with
        | [] => none
        | around :: others =>
          scan 0 (around.add inner.pieces (readSuffix rest).1) others (readSuffix rest).2
      else scan 0 (inner.push c) outer rest :=
  scan.eq_def braces inner outer (c :: rest)

/-- A scan of a text with closed braces goes on from where it ended when more text follows. -/
theorem scan_append {braces : Nat} {inner : Open} {outer : List Open} {p : Text} {parts : List Part}
    (h : scan braces inner outer p = some parts) (hb : p.foldl bracesAfter braces = 0) :
    ∃ last, last.pieces = parts ∧ last.buffer.reverse <:+ inner.buffer.reverse ++ p ∧
      ∀ y : Text, y.head? ≠ some '*' ∧ y.head? ≠ some '+' →
        scan braces inner outer (p ++ y) = scan 0 last [] y := by
  fun_induction scan braces inner outer p with
  | case1 braces inner outer houter =>
    rw [List.isEmpty_iff.mp houter, show braces = 0 from hb]
    exact ⟨inner, Option.some.inj h, by simp, fun y _ => rfl⟩
  | case2 => cases h
  | case3 braces inner outer c rest hc ih =>
    obtain ⟨last, hpieces, hsuffix, hscan⟩ := ih h hb
    refine ⟨last, hpieces, by simpa [Open.push] using hsuffix, ?_⟩
    intro y hy
    rw [List.cons_append, scan_cons, if_pos hc]
    exact hscan y hy
  | case4 braces inner outer rest hc ih =>
    rw [not_or, Nat.not_lt, Nat.le_zero] at hc
    obtain ⟨last, hpieces, hsuffix, hscan⟩ := ih h (by simpa [hc.1, bracesAfter] using hb)
    refine ⟨last, hpieces, ?_, fun y hy => ?_⟩
    · exact hsuffix.trans ((List.suffix_cons _ _).trans (List.suffix_append _ _))
    · rw [List.cons_append, scan_cons, if_neg (by simp [hc]), if_pos rfl]
      exact hscan y hy
  | case5 => cases h
  | case6 braces inner rest around others h₁ h₂ ih =>
    -- the text may end with the group, then its suffix must not come from what follows
    rw [not_or, Nat.not_lt, Nat.le_zero] at h₁
    have hb' : rest.foldl bracesAfter 0 = 0 := by simpa [h₁.1, bracesAfter] using hb
    obtain ⟨last, hpieces, hsuffix, hscan⟩ := ih h (by rw [foldl_readSuffix, hb'])
    refine ⟨last, hpieces, ?_, fun y hy => ?_⟩
    · exact hsuffix.trans ((suffix_readSuffix rest).trans ((List.suffix_cons _ _).trans (List.suffix_append _ _)))
    · rw [List.cons_append, scan_cons, if_neg (by simp [h₁]), if_neg (by decide), if_pos rfl, readSuffix_append hy]
      exact hscan y hy
  | case7 braces inner outer c rest h₁ h₂ h₃ ih =>
    rw [not_or, Nat.not_lt, Nat.le_zero] at h₁
    obtain ⟨last, hpieces, hsuffix, hscan⟩ := ih h (by simpa [h₁.1, h₁.2, bracesAfter] using hb)
    refine ⟨last, hpieces, by simpa [Open.push] using hsuffix, ?_⟩
    intro y hy
    rw [List.cons_append, scan_cons, if_neg (by simp [h₁]), if_neg h₂, if_neg h₃]
    exact hscan y hy

end Part

/-! ### Patterns -/

theorem partsTokens_append (default : Text) (a b : List Part) :
    (partsTokens default (a ++ b)).1 = (partsTokens default a).1 ++ (partsTokens default b).1 := by
  induction a with
  | nil => simp [partsTokens]
  | cons p a ih => simp [partsTokens, ih]

theorem tokenize_eq_ok {delimiter pattern : Text} {t : Tokenized} (h : tokenize delimiter pattern = .ok t) :
    ∃ parts, Part.scan 0 {} [] pattern = some parts ∧ t.tokens = (partsTokens (defaultCapture delimiter) parts).1 := by
  obtain ⟨parts, hparts, ht⟩ := bind_eq_ok.mp h
  rw [Part.outline] at hparts
  split at hparts
  · next found hfound =>
    rw [Except.ok.injEq] at hparts
    refine ⟨parts, hparts ▸ hfound, ?_⟩
    rw [← Except.ok.inj ht]
  · cases hparts

theorem tokenize_of_scan {delimiter pattern : Text} {parts : List Part} (h : Part.scan 0 {} [] pattern = some parts) :
    tokenize delimiter pattern = .ok ⟨pattern, (partsTokens (defaultCapture delimiter) parts).1⟩ := by
  rw [tokenize, Part.outline, h]
  rfl

end Routing.Pattern
