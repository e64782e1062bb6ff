import Routing.Proofs.Pattern.Delimiters
import Routing.Proofs.Pattern.Joining

/-!
# The order of variables

Brackets do not matter for the variables of a pattern whose opening braces are all closed: they are those of its text,
in the order in which they are written there (`names_of_assigned`). A bracket that opens or closes a group stands
outside of braces, so the text between two of them has all its braces closed (`namesOfParts_of_scan`).
-/

namespace Routing.Pattern

/-! ### Braces -/

/-- Without a brace that closes them all, some of the open braces are left. -/
theorem lt_foldl_of_closingBrace_eq_none {depth : Nat} {t : Text} (h : closingBrace depth t = none) (more : Nat) :
    more < t.foldl Part.bracesAfter (depth + 1 + more) := by
  induction t generalizing depth with
  | nil => simp only [List.foldl_nil]; omega
  | cons c t ih =>
    rw [closingBrace] at h
    split at h
    · cases h
    · next hc =>
      rw [Option.map_eq_none_iff] at h
      have hnext : Part.bracesAfter (depth + 1 + more) c =
          (if c = '\x7d' then depth - 1 else if c = '\x7b' then depth + 1 else depth) + 1 + more := by
        by_cases hclose : c = '\x7d'
        · have hdepth : depth ≠ 0 := fun h0 => hc ⟨hclose, h0⟩
          rw [if_pos hclose, hclose, Part.bracesAfter, if_neg (by decide), if_pos rfl]
          omega
        · by_cases hopen : c = '\x7b'
          · rw [if_neg hclose, if_pos hopen, hopen, Part.bracesAfter, if_pos rfl]
            omega
          · rw [if_neg hclose, if_neg hopen, Part.bracesAfter, if_neg hopen, if_neg hclose]
      rw [List.foldl_cons, hnext]
      exact ih h

theorem braced_iff_foldl {t : Text} : Braced t ↔ t.foldl Part.bracesAfter 0 = 0 := by
  refine ⟨foldl_of_braced, ?_⟩
  rintro h before rest rfl
  rw [← Option.not_isNone, Bool.not_eq_true', ← Bool.not_eq_true, Option.isNone_iff_eq_none]
  intro hnone
  rw [List.foldl_append, List.foldl_cons, Part.bracesAfter, if_pos rfl] at h
  have := lt_foldl_of_closingBrace_eq_none hnone (before.foldl Part.bracesAfter 0)
  rw [show 0 + 1 + before.foldl Part.bracesAfter 0 = before.foldl Part.bracesAfter 0 + 1 by omega, h] at this
  exact Nat.not_lt_zero _ this

theorem foldl_name {name : Text} (h : ∀ c ∈ name, Text.isWord c = true) (braces : Nat) :
    name.foldl Part.bracesAfter braces = braces := by
  induction name with
  | nil => rfl
  | cons c name ih =>
    rw [List.forall_mem_cons] at h
    have hc : c ≠ '\x7b' ∧ c ≠ '\x7d' := by
      constructor <;>
      · rintro rfl
        exact absurd h.1 (by decide)
    rw [List.foldl_cons, Part.bracesAfter, if_neg hc.1, if_neg hc.2, ih h.2]

/-- A query suffix leaves no brace open. -/
theorem Declares.foldl {d : Text} {names : List Text} (h : Declares d names) (braces : Nat) :
    d.foldl Part.bracesAfter braces = braces := by
  have hopen : ∀ braces, Part.bracesAfter braces '\x7b' = braces + 1 := fun _ => rfl
  have hclose : ∀ braces, Part.bracesAfter (braces + 1) '\x7d' = braces := fun _ => rfl
  induction h with
  | last h => simp [hopen, foldl_name h.2, hclose]
  | newline h => simp [foldl_name h.2, Part.bracesAfter]
  | more h rest ih =>
    have hand : Part.bracesAfter braces '&' = braces := rfl
    simp [hopen, foldl_name h.2, hclose, hand, ih]

/-- A pattern is its path, and a suffix that declares the query names unless there are none. -/
theorem splitSuffix_cases (t : Text) : splitSuffix t = (t, []) ∨
    ∃ path d names, Declares d names ∧ t = path ++ '?' :: d ∧ splitSuffix t = (path, names) := by
  induction t with
  | nil => exact Or.inl rfl
  | cons c t ih =>
    rw [splitSuffix]
    split
    · next names hnames =>
      split at hnames
      · next hc => exact Or.inr ⟨[], t, names, declares_of_suffixNames hnames, by rw [hc]; rfl, rfl⟩
      · cases hnames
    · rcases ih with ih | ⟨path, d, names, hdeclares, ht, ih⟩
      · exact Or.inl (by rw [ih])
      · exact Or.inr ⟨c :: path, d, names, hdeclares, by rw [ht]; rfl, by rw [ih]⟩

/-! ### Texts -/

theorem namesOf_loosen (ts : List Token) : namesOf (loosen ts) = namesOf ts := by
  rw [← map_name_varsOf none, varsOf_loosen, map_name_varsOf]

theorem namesOf_letters (t : Text) : namesOf (letters t) = [] := by
  rw [← map_name_varsOf none, varsOf_letters, List.map_nil]

theorem namesOf_literalOf (literal : Text) : namesOf (literalOf literal) = [] := by
  rw [← namesOf_loosen, loosen_literalOf, namesOf_letters]

/-- The variables of a text without groups. -/
def namesIn (t : Text) : List Text := namesOf (runTokens [] [] t)

/-- Neither the literal text before nor the capture of a variable by default matters. -/
theorem namesOf_runTokens (default literal t : Text) : namesOf (runTokens default literal t) = namesIn t := by
  rw [(recaptured_runTokens [] default literal t).names, ← namesOf_loosen, loosen_runTokens, namesOf_append,
    namesOf_letters, List.nil_append, namesOf_loosen, namesIn]

theorem namesIn_nil : namesIn [] = [] := by rw [namesIn, runTokens, namesOf_literalOf]

theorem namesIn_variable {default t name capture after : Text}
    (h : variableAt default t = some (name, capture, after)) : namesIn ('\x7b' :: t) = name :: namesIn after := by
  rw [← namesOf_runTokens default [], runTokens, if_pos rfl]
  split
  · next heq =>
    obtain ⟨rfl, hrest⟩ := Prod.mk.inj (Option.some.inj (h.symm.trans heq))
    obtain ⟨-, rfl⟩ := Prod.mk.inj hrest
    rw [namesOf_append, namesOf_literalOf, namesOf, Token.names, namesOf_runTokens]
    rfl
  · next heq =>
    rw [h] at heq
    cases heq

theorem namesIn_brace {default t : Text} (h : variableAt default t = none) :
    namesIn ('\x7b' :: t) = namesIn t := by
  rw [← namesOf_runTokens default [], runTokens, if_pos rfl]
  split
  · next heq =>
    rw [h] at heq
    cases heq
  · exact namesOf_runTokens default _ t

theorem namesIn_cons {c : Char} (h : c ≠ '\x7b') (t : Text) : namesIn (c :: t) = namesIn t := by
  rw [namesIn, runTokens, if_neg h]
  exact namesOf_runTokens [] _ t

/-- A text whose braces are closed has its variables before those of what follows it. -/
theorem namesIn_append {t : Text} (h : Braced t) (y : Text) : namesIn (t ++ y) = namesIn t ++ namesIn y := by
  rw [namesIn, ← namesOf_loosen, loosen_runTokens_append [] [] h, namesOf_append, namesOf_loosen, namesOf_loosen,
    namesIn, namesIn]

/-! ### Outlines -/

section Outlines

variable (default : Text)

/-- The variables of an outline. -/
def namesOfParts (parts : List Part) : List Text := namesOf (partsTokens default parts).1

theorem namesOfParts_nil : namesOfParts default [] = [] := by simp [namesOfParts, partsTokens, namesOf]

theorem namesOfParts_append (a b : List Part) :
    namesOfParts default (a ++ b) = namesOfParts default a ++ namesOfParts default b := by
  rw [namesOfParts, partsTokens_append, namesOf_append, namesOfParts, namesOfParts]

theorem namesOfParts_text (t : Text) : namesOfParts default [.text t] = namesIn t := by
  simp [namesOfParts, partsTokens, partTokens, namesOf_runTokens]

theorem namesOfParts_group (raw : Text) (inner : List Part) (suffix : Suffix) :
    namesOfParts default [.group raw inner suffix] = namesOfParts default inner := by
  simp [namesOfParts, partsTokens, partTokens, namesOf, Token.names]

theorem namesOfParts_pieces (o : Part.Open) :
    namesOfParts default o.pieces = namesOfParts default o.parts.reverse ++ namesIn o.buffer.reverse := by
  rw [Part.Open.pieces]
  split
  · next h => rw [List.isEmpty_iff.mp h, List.reverse_nil, namesIn_nil, List.append_nil]
  · rw [List.reverse_cons, namesOfParts_append, namesOfParts_text]

theorem namesIn_readSuffix (t : Text) : namesIn (Part.readSuffix t).2 = namesIn t := by
  unfold Part.readSuffix
  split
  · exact (namesIn_cons (by decide) _).symm
  · exact (namesIn_cons (by decide) _).symm
  · rfl

/-- A scan finds the variables of the text that it goes through: those of the finished pieces of all open brackets, and
those of the text behind them. -/
theorem namesOfParts_of_scan {braces : Nat} {inner : Part.Open} {outer : List Part.Open} {t : Text} {parts : List Part}
    (h : Part.scan braces inner outer t = some parts) (hclosed : t.foldl Part.bracesAfter braces = 0)
    (hbuffer : inner.buffer.reverse.foldl Part.bracesAfter 0 = braces) :
    namesOfParts default parts = outer.reverse.flatMap (fun o => namesOfParts default o.parts.reverse) ++
      namesOfParts default inner.parts.reverse ++ namesIn (inner.buffer.reverse ++ t) := by
  fun_induction Part.scan braces inner outer t with
  | case1 braces inner outer hempty =>
    rw [← Option.some.inj h, List.isEmpty_iff.mp hempty, namesOfParts_pieces, List.append_nil]
    rfl
  | case2 => cases h
  | case3 braces inner outer c rest hc ih =>
    rw [ih h hclosed (by simp [Part.Open.push, hbuffer])]
    simp [Part.Open.push]
  | case4 braces inner outer rest hc ih =>
    -- the bracket stands outside of braces, so the text before it has them all closed
    obtain rfl : braces = 0 := by omega
    rw [ih h hclosed rfl, namesIn_append (braced_iff_foldl.mpr hbuffer), namesIn_cons (by decide)]
    simp [Part.Open.rest, namesOfParts_pieces, namesOfParts_nil]
  | case5 => cases h
  | case6 braces inner rest around others h₁ h₂ ih =>
    obtain rfl : braces = 0 := by omega
    rw [ih h (by rw [Part.foldl_readSuffix]; exact hclosed) rfl, namesIn_append (braced_iff_foldl.mpr hbuffer),
      namesIn_cons (by decide)]
    simp [Part.Open.add, namesOfParts_append, namesOfParts_group, namesOfParts_pieces, namesIn_readSuffix]
  | case7 braces inner outer c rest h₁ h₂ h₃ ih =>
    obtain rfl : braces = 0 := by omega
    have hafter : Part.bracesAfter 0 c = 0 := by
      rw [not_or] at h₁
      simp [Part.bracesAfter, h₁.2]
    rw [ih h (by rwa [List.foldl_cons, hafter] at hclosed) (by simp [Part.Open.push, hbuffer, hafter])]
    simp [Part.Open.push]

end Outlines

/-- The variables of a pattern are those of its text, without regard to its brackets. -/
theorem namesOf_of_tokenize {delimiter pattern : Text} {t : Tokenized} (h : tokenize delimiter pattern = .ok t)
    (hbraced : Braced pattern) : namesOf t.tokens = namesIn pattern := by
  obtain ⟨parts, hparts, htokens⟩ := tokenize_eq_ok h
  rw [htokens]
  exact (namesOfParts_of_scan (defaultCapture delimiter) hparts (foldl_of_braced hbraced) rfl).trans (by
    simp [namesOfParts_nil])

/-- So are those of the rule of an assigned pattern. -/
theorem names_of_assigned {p : RoutePattern} {delimiter : Text} (h : p.Assigned delimiter) (hbraced : Braced p.path) :
    p.rule.names = namesIn p.path := by
  rw [Rule.names, h.vars_eq, map_name_varsOf, namesOf_of_tokenize h.tokens hbraced]

end Routing.Pattern
