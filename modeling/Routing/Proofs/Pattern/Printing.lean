import Routing.Proofs.Pattern.Faithful

/-!
# Tokens as a pattern

Tokens may be written as a pattern: a literal as its text, a variable with its capture, a group in brackets with its
suffix. Where the tokens are `IsPrintable`, tokenizing gives them back (`tokenize_written`).

The scan of the written tokens takes one token after the other (`scan_written`), and `Open.take` is what it makes of
them. A literal or a variable goes into the text that is being read, so a group is where the tokens of a text are
settled: the induction of `fst_partsTokens_take` carries the tokens that are in that text.
-/

namespace Routing.Pattern

/-- The pattern of some tokens. -/
def written : List Token → Text
  | [] => []
  | .literal text :: rest => text ++ written rest
  | .variable name capture :: rest => '\x7b' :: name ++ ':' :: capture ++ '\x7d' :: written rest
  | .group suffix _ _ children :: rest => '[' :: written children ++ ']' :: (suffix.written ++ written rest)

/-- Whether a text may be written as a literal: it has a character, but no bracket and no opening brace. -/
def IsPlainText (t : Text) : Prop := t ≠ [] ∧ ∀ c ∈ t, c ≠ '[' ∧ c ≠ ']' ∧ c ≠ '\x7b'

/-- Whether some tokens can be told apart when they are written, and their groups have the fields that go with it. -/
def IsPrintable : List Token → Prop
  | [] => True
  | .literal text :: rest => IsPlainText text ∧ (∀ t ∈ rest.head?, t.isLiteral = false) ∧ IsPrintable rest
  | .variable name capture :: rest =>
    (IsName name ∧ capture ≠ [] ∧ Balanced '\x7b' '\x7d' 0 capture) ∧ IsPrintable rest
  | .group suffix binds raw children :: rest =>
    (raw = written children ∧ binds = if suffix.repeats then (namesOf children).getLast? else none) ∧
      (suffix = .optional → ∀ text, rest.head? = some (.literal text) → Part.NoSuffix text) ∧
      IsPrintable children ∧ IsPrintable rest

/-- Whether there are no groups among some tokens. -/
def IsFlat (ts : List Token) : Prop := GroupsAll (fun _ _ _ _ => False) ts

theorem IsPrintable.of_append {a b : List Token} (h : IsPrintable (a ++ b)) : IsPrintable a := by
  have hhead {rest : List Token} {t : Token} (ht : rest.head? = some t) : (rest ++ b).head? = some t := by
    rw [List.head?_append, ht]
    rfl
  induction a using tokens_induction with
  | nil => simp [IsPrintable]
  | literal text rest ih =>
    rw [List.cons_append, IsPrintable] at h
    rw [IsPrintable]
    exact ⟨h.1, fun t ht => h.2.1 t (hhead ht), ih h.2.2⟩
  | var name capture rest ih =>
    rw [List.cons_append, IsPrintable] at h
    rw [IsPrintable]
    exact ⟨h.1, ih h.2⟩
  | group suffix binds raw children rest ihc ih =>
    rw [List.cons_append, IsPrintable] at h
    rw [IsPrintable]
    exact ⟨h.1, fun hs text ht => h.2.1 hs text (hhead ht), h.2.2.1, ih h.2.2.2⟩

theorem IsPrintable.of_append_right {a b : List Token} (h : IsPrintable (a ++ b)) : IsPrintable b := by
  induction a using tokens_induction with
  | nil => exact h
  | literal text rest ih =>
    rw [List.cons_append, IsPrintable] at h
    exact ih h.2.2
  | var name capture rest ih =>
    rw [List.cons_append, IsPrintable] at h
    exact ih h.2
  | group suffix binds raw children rest ihc ih =>
    rw [List.cons_append, IsPrintable] at h
    exact ih h.2.2.2

/-! ### The tokens of a text -/

theorem runTokens_append (default literal : Text) {t : Text} (h : ∀ c ∈ t, c ≠ '\x7b') (y : Text) :
    runTokens default literal (t ++ y) = runTokens default (t.reverse ++ literal) y := by
  induction t generalizing literal with
  | nil => rfl
  | cons c t ih =>
    rw [List.forall_mem_cons] at h
    rw [List.cons_append, runTokens, if_neg h.1, ih _ h.2, List.reverse_cons, List.append_assoc]
    rfl

theorem balanced_word {t capture : Text} (h : ∀ c ∈ t, Text.isWord c = true) :
    Balanced '\x7b' '\x7d' 0 (t ++ capture) ↔ Balanced '\x7b' '\x7d' 0 capture :=
  balanced_append t (fun hmem => absurd (h _ hmem) (by decide)) fun hmem => absurd (h _ hmem) (by decide)

section Variable

variable {name capture : Text} (hname : IsName name) (hbalanced : Balanced '\x7b' '\x7d' 0 capture) (y : Text)

include hname hbalanced

theorem closingBrace_variable :
    closingBrace 0 (name ++ ':' :: capture ++ '\x7d' :: y) = some (name ++ ':' :: capture, y) := by
  refine closingBrace_eq_some_iff.mpr ⟨rfl, ?_⟩
  rw [balanced_word hname.2, balanced_other (by decide) (by decide)]
  exact hbalanced

theorem variableAt_variable (default : Text) (hcapture : capture ≠ []) :
    variableAt default (name ++ ':' :: capture ++ '\x7d' :: y) = some (name, capture, y) := by
  have htake : (name ++ ':' :: (capture ++ '\x7d' :: y)).takeWhile Text.isWord = name := by
    rw [List.takeWhile_append_of_pos hname.2, List.takeWhile_cons_of_neg (by decide), List.append_nil]
  have hdrop : (name ++ ':' :: (capture ++ '\x7d' :: y)).dropWhile Text.isWord = ':' :: (capture ++ '\x7d' :: y) := by
    rw [List.dropWhile_append_of_pos hname.2, List.dropWhile_cons_of_neg (by decide)]
  have hclose : closingBrace 0 (capture ++ '\x7d' :: y) = some (capture, y) :=
    closingBrace_eq_some_iff.mpr ⟨rfl, hbalanced⟩
  rw [List.append_assoc, List.cons_append]
  unfold variableAt
  simp only [htake, hdrop, hclose]
  simp [hname.1, hcapture]

end Variable

/-- The text of tokens without a group gives them back. Literal text before it needs no literal to come first. -/
theorem runTokens_written (default : Text) {ts : List Token} (hflat : IsFlat ts) (h : IsPrintable ts) {literal : Text}
    (hliteral : literal = [] ∨ ∀ t ∈ ts.head?, t.isLiteral = false) :
    runTokens default literal (written ts) = literalOf literal ++ ts := by
  induction ts using tokens_induction generalizing literal with
  | nil => rw [written, runTokens, List.append_nil]
  | literal text rest ih =>
    rw [IsPrintable] at h
    rw [IsFlat, GroupsAll] at hflat
    obtain ⟨⟨hne, hplain⟩, hnext, hrest⟩ := h
    obtain rfl : literal = [] := hliteral.resolve_right fun hno => absurd (hno _ rfl) (by simp [Token.isLiteral])
    rw [written, runTokens_append _ _ fun c hc => (hplain c hc).2.2, List.append_nil, ih hflat hrest (Or.inr hnext)]
    simp [literalOf, hne]
  | var name capture rest ih =>
    rw [IsPrintable] at h
    rw [IsFlat, GroupsAll] at hflat
    obtain ⟨⟨hname, hcapture, hbalanced⟩, hrest⟩ := h
    have hvariable := variableAt_variable hname hbalanced (written rest) default hcapture
    rw [written, List.cons_append, List.cons_append, runTokens, if_pos rfl]
    split
    · next heq =>
      rw [hvariable, Option.some.injEq, Prod.mk.injEq, Prod.mk.injEq] at heq
      obtain ⟨rfl, rfl, rfl⟩ := heq
      rw [ih hflat hrest (Or.inl rfl)]
      rfl
    · next heq => cases hvariable.symm.trans heq
  | group suffix binds raw children rest ihc ih =>
    rw [IsFlat, GroupsAll] at hflat
    exact hflat.1.elim

/-! ### The scan of written tokens -/

namespace Part

/-- The state with more text in the current piece. -/
def Open.extend (o : Open) (more : Text) : Open := { o with buffer := more.reverse ++ o.buffer }

/-- What an open bracket becomes by some tokens in it. -/
def Open.take : Open → List Token → Open
  | o, [] => o
  | o, .literal t :: rest => (o.extend t).take rest
  | o, .variable name capture :: rest => (o.extend ('\x7b' :: name ++ ':' :: capture ++ ['\x7d'])).take rest
  | o, .group suffix _ _ children :: rest => (o.rest.add (Open.take {} children).pieces suffix).take rest

theorem scan_plain {t : Text} (h : ∀ c ∈ t, c ≠ '[' ∧ c ≠ ']' ∧ c ≠ '\x7b') (o : Open) (outer : List Open) (y : Text) :
    scan 0 o outer (t ++ y) = scan 0 (o.extend t) outer y := by
  induction t generalizing o with
  | nil => rfl
  | cons c t ih =>
    rw [List.forall_mem_cons] at h
    rw [List.cons_append, scan_cons, if_neg (by simp [h.1.2.2]), if_neg h.1.1, if_neg h.1.2.1, ih h.2]
    simp [Open.extend, Open.push]

/-- Whatever is in braces is text. -/
theorem scan_of_closingBrace {depth : Nat} {t inside after : Text} (h : closingBrace depth t = some (inside, after))
    (o : Open) (outer : List Open) :
    scan (depth + 1) o outer t = scan 0 (o.extend (inside ++ ['\x7d'])) outer after := by
  induction t generalizing depth inside o with
  | nil => simp [closingBrace] at h
  | cons c t ih =>
    rw [closingBrace] at h
    rw [scan_cons, if_pos (Or.inl (Nat.succ_pos depth))]
    split at h
    · next hc =>
      simp only [Option.some.injEq, Prod.mk.injEq] at h
      obtain ⟨rfl, rfl⟩ := h
      rw [hc.1, hc.2]
      rfl
    · next hc =>
      obtain ⟨⟨i, a⟩, hfound, he⟩ := Option.map_eq_some_iff.mp h
      simp only [Prod.mk.injEq] at he
      obtain ⟨rfl, rfl⟩ := he
      have hafter : bracesAfter (depth + 1) c =
          (if c = '\x7d' then depth - 1 else if c = '\x7b' then depth + 1 else depth) + 1 := by
        simp only [bracesAfter]
        grind
      rw [hafter, ih hfound]
      simp [Open.extend, Open.push]

/-- What follows printable tokens, or a group without a suffix among them, is not taken for a suffix. -/
theorem noSuffix_written {rest : List Token} (hprintable : IsPrintable rest) {y : Text} (hy : NoSuffix y)
    (hnext : ∀ text, rest.head? = some (.literal text) → NoSuffix text) : NoSuffix (written rest ++ y) := by
  cases rest using tokens_induction with
  | nil => simpa [written] using hy
  | literal text rest =>
    rw [IsPrintable] at hprintable
    obtain ⟨c, t, rfl⟩ := List.exists_cons_of_ne_nil hprintable.1.1
    rw [written, List.cons_append, List.cons_append, noSuffix_cons]
    exact noSuffix_cons.mp (hnext _ rfl)
  | var name capture rest =>
    rw [written, List.cons_append, List.cons_append, List.cons_append, noSuffix_cons]
    decide
  | group suffix binds raw children rest =>
    rw [written, List.cons_append, List.cons_append, noSuffix_cons]
    decide

/-- The scan of written tokens takes them, whatever is open and whatever follows. -/
theorem scan_written {ts : List Token} (h : IsPrintable ts) (o : Open) (outer : List Open) {y : Text}
    (hy : NoSuffix y) : scan 0 o outer (written ts ++ y) = scan 0 (o.take ts) outer y := by
  induction ts using tokens_induction generalizing o outer y with
  | nil => rw [written, Open.take, List.nil_append]
  | literal t rest ih =>
    rw [IsPrintable] at h
    obtain ⟨⟨-, hplain⟩, -, hrest⟩ := h
    rw [written, Open.take, List.append_assoc, scan_plain hplain, ih hrest _ _ hy]
  | var name capture rest ih =>
    rw [IsPrintable] at h
    obtain ⟨⟨hname, -, hbalanced⟩, hrest⟩ := h
    have hclose := closingBrace_variable hname hbalanced (written rest ++ y)
    have htext : written (.variable name capture :: rest) ++ y =
        '\x7b' :: (name ++ ':' :: capture ++ '\x7d' :: (written rest ++ y)) := by
      simp [written]
    rw [htext, scan_cons, if_pos (Or.inr rfl)]
    show scan (0 + 1) _ _ _ = _
    rw [scan_of_closingBrace hclose, ih hrest _ _ hy, Open.take]
    simp [Open.extend, Open.push]
  | group suffix binds raw children rest ihc ih =>
    rw [IsPrintable] at h
    obtain ⟨-, hnext, hchildren, hrest⟩ := h
    have hsuffix : readSuffix (suffix.written ++ (written rest ++ y)) = (suffix, written rest ++ y) :=
      readSuffix_written fun hs => noSuffix_written hrest hy (hnext hs)
    have htext : written (.group suffix binds raw children :: rest) ++ y =
        '[' :: (written children ++ ']' :: (suffix.written ++ (written rest ++ y))) := by
      simp [written]
    rw [htext, scan_cons, if_neg (by decide), if_pos rfl, ihc hchildren _ _ (noSuffix_cons.mpr (by decide)), scan_cons,
      if_neg (by decide), if_neg (by decide), if_pos rfl]
    simp only [hsuffix]
    rw [ih hrest _ _ hy, Open.take]

theorem scan_written_nil {ts : List Token} (h : IsPrintable ts) :
    scan 0 {} [] (written ts) = some (Open.take {} ts).pieces := by
  have := scan_written h {} [] noSuffix_nil
  rw [List.append_nil] at this
  rw [this, scan]
  rfl

end Part

/-! ### The tokens of the pieces -/

theorem fst_partsTokens_pieces (default : Text) (o : Part.Open) :
    (partsTokens default o.pieces).1 =
      (partsTokens default o.parts.reverse).1 ++ runTokens default [] o.buffer.reverse := by
  rw [Part.Open.pieces]
  split
  · next hempty => simp [List.isEmpty_iff.mp hempty, runTokens, literalOf]
  · rw [List.reverse_cons, partsTokens_append]
    simp [partsTokens, partTokens]

theorem written_append (a b : List Token) : written (a ++ b) = written a ++ written b := by
  induction a using tokens_induction with
  | nil => rw [written, List.nil_append, List.nil_append]
  | literal text rest ih => simp [written, ih]
  | var name capture rest ih => simp [written, ih]
  | group suffix binds raw children rest ihc ih => simp [written, ih]

theorem IsFlat.concat {front : List Token} (h : IsFlat front) {token : Token} (htoken : IsFlat [token]) :
    IsFlat (front ++ [token]) :=
  groupsAll_append.mpr ⟨h, htoken⟩

/-- The tokens of what an open bracket becomes by `ts`, where its current text is that of the tokens `front`. -/
theorem fst_partsTokens_take (default : Text) {ts front : List Token} (h : IsPrintable (front ++ ts))
    (hflat : IsFlat front) {o : Part.Open} (hbuffer : o.buffer.reverse = written front) :
    (partsTokens default (o.take ts).pieces).1 = (partsTokens default o.parts.reverse).1 ++ (front ++ ts) := by
  induction ts using tokens_induction generalizing front o with
  | nil =>
    rw [List.append_nil] at h ⊢
    rw [Part.Open.take, fst_partsTokens_pieces, hbuffer, runTokens_written default hflat h (Or.inl rfl)]
    rfl
  | literal text rest ih =>
    rw [List.append_cons] at h ⊢
    rw [Part.Open.take, ih h (hflat.concat (by simp [IsFlat, GroupsAll]))]
    · rfl
    · simp [Part.Open.extend, hbuffer, written_append, written]
  | var name capture rest ih =>
    rw [List.append_cons] at h ⊢
    rw [Part.Open.take, ih h (hflat.concat (by simp [IsFlat, GroupsAll]))]
    · rfl
    · simp [Part.Open.extend, hbuffer, written_append, written]
  | group suffix binds raw children rest ihc ih =>
    have hfront := h.of_append
    have hgroup := h.of_append_right
    rw [IsPrintable] at hgroup
    obtain ⟨⟨hraw, hbinds⟩, -, hchildren, hrest⟩ := hgroup
    have hinner : (partsTokens default (Part.Open.take {} children).pieces).1 = children := by
      have hall : IsPrintable ([] ++ children) := hchildren
      have := ihc hall (by simp [IsFlat, GroupsAll]) (o := {}) (by simp [written])
      simpa [partsTokens] using this
    have hsource := Part.flatMap_source (Part.scan_written_nil hchildren)
    -- the group settles the tokens before it, and the text after it is empty
    have htokens := ih (show IsPrintable ([] ++ rest) from hrest) (by simp [IsFlat, GroupsAll])
      (o := o.rest.add (Part.Open.take {} children).pieces suffix) (by simp [Part.Open.add, written])
    have hparts : (o.rest.add (Part.Open.take {} children).pieces suffix).parts.reverse =
        o.pieces ++ [.group raw (Part.Open.take {} children).pieces suffix] := by
      simp [Part.Open.add, Part.Open.rest, hsource, hraw]
    rw [Part.Open.take, htokens, hparts, partsTokens_append, fst_partsTokens_pieces, hbuffer,
      runTokens_written default hflat hfront (Or.inl rfl), hbinds]
    simp [partsTokens, partTokens, snd_partsTokens, hinner, literalOf]

/-- Written tokens are cut into pieces that have these tokens. -/
theorem exists_scan_written (default : Text) {ts : List Token} (h : IsPrintable ts) :
    ∃ parts, Part.scan 0 {} [] (written ts) = some parts ∧ (partsTokens default parts).1 = ts := by
  refine ⟨_, Part.scan_written_nil h, ?_⟩
  have hall : IsPrintable ([] ++ ts) := h
  have htokens := fst_partsTokens_take default hall (by simp [IsFlat, GroupsAll]) (o := {}) (by simp [written])
  rw [htokens, List.reverse_nil, partsTokens]
  rfl

/-- Tokens that can be told apart are read back from the pattern that they are written as. -/
theorem tokenize_written (delimiter : Text) {ts : List Token} (h : IsPrintable ts) :
    tokenize delimiter (written ts) = .ok ⟨written ts, ts⟩ := by
  obtain ⟨parts, hscan, htokens⟩ := exists_scan_written (defaultCapture delimiter) h
  rw [tokenize_of_scan hscan, htokens]

/-- A closing brace in a literal, brackets, a colon and braces in a capture, and a group in a group. -/
theorem nested_tokens_are_read_back :
    ∃ ts, written ts = "a\x7d[.\x7bv:[\x7bx\x7d:]\x7d[/\x7bw:b\x7d]*];[]+*".toList ∧
      tokenize ['/'] (written ts) = .ok ⟨written ts, ts⟩ := by
  refine ⟨[.literal "a\x7d".toList,
    .group .optional none ".\x7bv:[\x7bx\x7d:]\x7d[/\x7bw:b\x7d]*".toList [.literal ['.'],
      .variable ['v'] "[\x7bx\x7d:]".toList,
      .group .star (some ['w']) "/\x7bw:b\x7d".toList [.literal ['/'], .variable ['w'] ['b']]],
    .literal [';'], .group .plus none [] [], .literal ['*']], by cbv, tokenize_written ['/'] ?_⟩
  have hname : IsName ['v'] ∧ IsName ['w'] := by
    simp only [IsName, List.forall_mem_singleton]
    exact ⟨⟨by simp, by cbv⟩, by simp, by cbv⟩
  have hcapture : Balanced '\x7b' '\x7d' 0 ['[', '\x7b', 'x', '\x7d', ':', ']'] ∧ Balanced '\x7b' '\x7d' 0 ['b'] := by
    decide
  simp [IsPrintable, IsPlainText, Part.NoSuffix, Token.isLiteral, written, Suffix.written, Suffix.repeats, namesOf,
    Token.names, hname, hcapture]

end Routing.Pattern
