import Routing.Proofs.Pattern.Outline
import Routing.Proofs.Pattern.QuerySuffix

/-!
# What tokens keep of their pattern

The pieces of an outline are the pattern, one after the other (`flatMap_source`). So a pattern that starts with a
literal starts with its text (`head?_of_tokenize`). The variables of a pattern have names of word characters
(`isName_of_tokenize`), and one of them after a character is a pattern of two tokens (`tokenize_item`).
-/

namespace Routing.Pattern

/-! ### Pieces -/

namespace Part

/-- The text that an open bracket has taken so far. -/
def Open.source (o : Open) : Text := o.parts.reverse.flatMap Part.source ++ o.buffer.reverse

theorem Open.flatMap_pieces (o : Open) : o.pieces.flatMap Part.source = o.source := by
  cases hb : o.buffer with
  | nil => simp [Open.pieces, Open.source, hb]
  | cons c buffer => simp [Open.pieces, Open.source, hb, Part.source]

theorem Open.source_push (o : Open) (c : Char) : (o.push c).source = o.source ++ [c] := by
  simp [Open.source, Open.push]

theorem Open.source_rest (o : Open) : o.rest.source = o.source := by
  rw [Open.source, Open.rest, List.reverse_reverse, Open.flatMap_pieces, List.reverse_nil, List.append_nil]

theorem Open.source_add (o : Open) (hbuffer : o.buffer = []) (inner : List Part) (suffix : Suffix) :
    (o.add inner suffix).source = o.source ++ '[' :: inner.flatMap Part.source ++ ']' :: suffix.written := by
  simp [Open.source, Open.add, hbuffer, Part.source]

theorem written_readSuffix (t : Text) : (readSuffix t).1.written ++ (readSuffix t).2 = t := by
  unfold readSuffix
  split <;> rfl

/-- The text that is around the innermost open bracket. -/
def around (outer : List Open) : Text := outer.reverse.flatMap fun o => o.source ++ ['[']

theorem around_cons (o : Open) (outer : List Open) : around (o :: outer) = around outer ++ o.source ++ ['['] := by
  simp [around]

/-- A scan loses no text. The brackets around the innermost one have finished their pieces. -/
theorem scan_source {braces : Nat} {inner : Open} {outer : List Open} {t : Text} {parts : List Part}
    (h : scan braces inner outer t = some parts) (houter : ∀ o ∈ outer, o.buffer = []) :
    parts.flatMap Part.source = around outer ++ inner.source ++ t := by
  fun_induction scan braces inner outer t with
  | case1 braces inner outer hempty =>
    rw [← Option.some.inj h, Open.flatMap_pieces, List.isEmpty_iff.mp hempty]
    simp [around]
  | case2 => cases h
  | case3 braces inner outer c rest hc ih =>
    rw [ih h houter, Open.source_push]
    simp only [List.append_assoc, List.singleton_append]
  | case4 braces inner outer rest hc ih =>
    have hrest : ∀ o ∈ inner.rest :: outer, o.buffer = [] := List.forall_mem_cons.mpr ⟨rfl, houter⟩
    rw [ih h hrest, around_cons, Open.source_rest]
    simp [Open.source]
  | case5 => cases h
  | case6 braces inner rest enclosing others h₁ h₂ ih =>
    rw [List.forall_mem_cons] at houter
    have hsuffix := written_readSuffix rest
    rw [ih h houter.2, Open.source_add _ houter.1, Open.flatMap_pieces, around_cons]
    simp [hsuffix]
  | case7 braces inner outer c rest h₁ h₂ h₃ ih =>
    rw [ih h houter, Open.source_push]
    simp only [List.append_assoc, List.singleton_append]

theorem flatMap_source {pattern : Text} {parts : List Part} (h : scan 0 {} [] pattern = some parts) :
    parts.flatMap Part.source = pattern := by
  rw [scan_source h (by simp)]
  simp [around, Open.source]

end Part

/-! ### The first literal -/

theorem runTokens_of_literal (default : Text) {literal : Text} (h : literal ≠ []) (t : Text) :
    ∃ more rest, runTokens default literal t = .literal (literal.reverse ++ more) :: rest := by
  have hliteral : literalOf literal = [.literal literal.reverse] := by simp [literalOf, h]
  fun_induction runTokens default literal t with
  | case1 literal => exact ⟨[], [], by rw [hliteral, List.append_nil]⟩
  | case2 literal rest name capture after hvar ih =>
    exact ⟨[], _, by rw [hliteral, List.append_nil, List.singleton_append]⟩
  | case3 literal rest hvar ih =>
    obtain ⟨more, others, heq⟩ := ih (List.cons_ne_nil _ _) (by simp [literalOf])
    exact ⟨'\x7b' :: more, others, by rw [heq, List.reverse_cons, List.append_assoc, List.singleton_append]⟩
  | case4 literal c rest hc ih =>
    obtain ⟨more, others, heq⟩ := ih (List.cons_ne_nil _ _) (by simp [literalOf])
    exact ⟨c :: more, others, by rw [heq, List.reverse_cons, List.append_assoc, List.singleton_append]⟩

/-- The first token of a text starts with the first character, unless it is a variable. -/
theorem runTokens_cons (default : Text) (c : Char) (t : Text) :
    ∃ token rest, runTokens default [] (c :: t) = token :: rest ∧ ∀ x, token = .literal x → x.head? = some c := by
  have hplain : ∃ token rest, runTokens default [c] t = token :: rest ∧ ∀ x, token = .literal x → x.head? = some c := by
    obtain ⟨more, rest, hfirst⟩ := runTokens_of_literal default (List.cons_ne_nil c []) t
    refine ⟨_, rest, hfirst, ?_⟩
    rintro x hx
    rw [← Token.literal.inj hx]
    rfl
  rw [runTokens]
  split
  · split
    · refine ⟨_, _, rfl, ?_⟩
      intro x hx
      cases hx
    · exact hplain
  · exact hplain

theorem head?_of_partsTokens {default x : Text} {parts : List Part} {rest : List Token}
    (h : (partsTokens default parts).1 = .literal x :: rest) :
    ∃ c, x.head? = some c ∧ (parts.flatMap Part.source).head? = some c := by
  induction parts with
  | nil => simp [partsTokens] at h
  | cons p parts ih =>
    cases p with
    | group raw inner suffix => simp [partsTokens, partTokens] at h
    | text t =>
      simp only [partsTokens, partTokens] at h
      cases t with
      | nil =>
        have hnil : runTokens default [] [] = [] := by simp [runTokens, literalOf]
        rw [hnil, List.nil_append] at h
        exact ih h
      | cons c t =>
        obtain ⟨token, others, hfirst, hhead⟩ := runTokens_cons default c t
        rw [hfirst, List.cons_append, List.cons.injEq] at h
        exact ⟨c, hhead x h.1, rfl⟩

/-- A pattern that starts with a literal starts with its text. -/
theorem head?_of_tokenize {delimiter pattern x : Text} {t : Tokenized} {rest : List Token}
    (h : tokenize delimiter pattern = .ok t) (hx : t.tokens = .literal x :: rest) :
    ∃ c, x.head? = some c ∧ pattern.head? = some c := by
  obtain ⟨parts, hparts, htokens⟩ := tokenize_eq_ok h
  rw [htokens] at hx
  rw [← Part.flatMap_source hparts]
  exact head?_of_partsTokens hx

/-! ### Names -/

theorem namesOf_append (a b : List Token) : namesOf (a ++ b) = namesOf a ++ namesOf b := by
  induction a with
  | nil => simp [namesOf]
  | cons token a ih => simp [namesOf, ih]

theorem isName_of_variableAt {default t name capture after : Text}
    (h : variableAt default t = some (name, capture, after)) : IsName name := by
  unfold variableAt at h
  simp only at h
  split at h
  · cases h
  · next hne =>
    have hname : name = t.takeWhile Text.isWord := by
      split at h
      · exact (Prod.mk.inj (Option.some.inj h)).1.symm
      · obtain ⟨⟨i, a⟩, -, he⟩ := Option.map_eq_some_iff.mp h
        exact (Prod.mk.inj he).1.symm
      · cases h
    rw [hname]
    exact isName_takeWhile hne

theorem isName_of_runTokens {default literal t : Text} :
    ∀ name ∈ namesOf (runTokens default literal t), IsName name := by
  have hliteral : ∀ literal, namesOf (literalOf literal) = [] := by
    intro literal
    cases literal <;> simp [literalOf, namesOf, Token.names]
  fun_induction runTokens default literal t with
  | case1 literal => simp [hliteral]
  | case2 literal rest name capture after hvar ih =>
    rw [namesOf_append, hliteral, List.nil_append, namesOf, Token.names, List.singleton_append]
    exact List.forall_mem_cons.mpr ⟨isName_of_variableAt hvar, ih⟩
  | case3 literal rest hvar ih => exact ih
  | case4 literal c rest hc ih => exact ih

theorem isName_of_partsTokens (default : Text) :
    ∀ parts : List Part, ∀ name ∈ namesOf (partsTokens default parts).1, IsName name
  | [] => by simp [partsTokens, namesOf]
  | .text t :: rest => by
    simp only [partsTokens, partTokens, namesOf_append, List.forall_mem_append]
    exact ⟨isName_of_runTokens, isName_of_partsTokens default rest⟩
  | .group raw inner suffix :: rest => by
    simp only [partsTokens, partTokens, namesOf_append, List.forall_mem_append, namesOf, Token.names, List.append_nil]
    exact ⟨isName_of_partsTokens default inner, isName_of_partsTokens default rest⟩

theorem isName_of_tokenize {delimiter pattern : Text} {t : Tokenized} (h : tokenize delimiter pattern = .ok t) :
    ∀ name ∈ namesOf t.tokens, IsName name := by
  obtain ⟨parts, -, htokens⟩ := tokenize_eq_ok h
  rw [htokens]
  exact isName_of_partsTokens _ parts

/-! ### A variable after a slash -/

theorem scan_name {name : Text} (h : ∀ c ∈ name, Text.isWord c = true) (inner : Part.Open) (outer : List Part.Open)
    (y : Text) :
    Part.scan 1 inner outer (name ++ y) =
      Part.scan 1 { inner with buffer := name.reverse ++ inner.buffer } outer y := by
  induction name generalizing inner with
  | nil => rfl
  | cons c name ih =>
    rw [List.forall_mem_cons] at h
    have hbrace : c ≠ '\x7b' ∧ c ≠ '\x7d' := by
      constructor <;>
      · rintro rfl
        exact absurd h.1 (by decide)
    have hafter : Part.bracesAfter 1 c = 1 := by simp [Part.bracesAfter, hbrace]
    rw [List.cons_append, Part.scan_cons, if_pos (Or.inl Nat.one_pos), hafter, ih h.2]
    simp [Part.Open.push]

/-- A variable in braces is text. -/
theorem scan_variable {name : Text} (h : IsName name) (inner : Part.Open) (outer : List Part.Open) (y : Text) :
    Part.scan 0 inner outer ('\x7b' :: name ++ '\x7d' :: y) =
      Part.scan 0 { inner with buffer := ('\x7b' :: name ++ ['\x7d']).reverse ++ inner.buffer } outer y := by
  rw [List.cons_append, Part.scan_cons, if_pos (Or.inr rfl)]
  show Part.scan 1 _ _ (name ++ '\x7d' :: y) = _
  rw [scan_name h.2, Part.scan_cons, if_pos (Or.inl Nat.one_pos)]
  simp [Part.Open.push, Part.bracesAfter]

/-- A variable without a capture has the default one. -/
theorem runTokens_variable {name : Text} (h : IsName name) (default literal : Text) :
    runTokens default literal ('\x7b' :: name ++ ['\x7d']) = literalOf literal ++ [.variable name default] := by
  have hvariable : variableAt default (name ++ ['\x7d']) = some (name, default, []) := by
    unfold variableAt
    simp only [takeWhile_name h, dropWhile_name h]
    simp [h.1]
  rw [List.cons_append, runTokens, if_pos rfl]
  split
  · next heq =>
    rw [hvariable, Option.some.injEq, Prod.mk.injEq, Prod.mk.injEq] at heq
    obtain ⟨rfl, rfl, rfl⟩ := heq
    simp [runTokens, literalOf]
  · next heq => simp [hvariable] at heq

section Item

variable {d : Char} (hd : d ≠ '[' ∧ d ≠ ']' ∧ d ≠ '\x7b') {name : Text} (h : IsName name)

include hd h

theorem scan_item (inner : Part.Open) (outer : List Part.Open) (y : Text) :
    Part.scan 0 inner outer (d :: '\x7b' :: name ++ '\x7d' :: y) =
      Part.scan 0 { inner with buffer := (d :: '\x7b' :: name ++ ['\x7d']).reverse ++ inner.buffer } outer y := by
  rw [List.cons_append, List.cons_append, Part.scan_cons, if_neg (by simp [hd.2.2]), if_neg hd.1, if_neg hd.2.1,
    ← List.cons_append, scan_variable h]
  simp [Part.Open.push]

theorem runTokens_item (default : Text) :
    runTokens default [] (d :: '\x7b' :: name ++ ['\x7d']) = [.literal [d], .variable name default] := by
  rw [List.cons_append, List.cons_append, runTokens, if_neg hd.2.2, ← List.cons_append, runTokens_variable h]
  rfl

/-- The pattern of a variable after a character. -/
theorem tokenize_item (delimiter : Text) :
    tokenize delimiter (d :: '\x7b' :: name ++ ['\x7d']) =
      .ok ⟨d :: '\x7b' :: name ++ ['\x7d'], [.literal [d], .variable name (defaultCapture delimiter)]⟩ := by
  have hscan : Part.scan 0 {} [] (d :: '\x7b' :: name ++ ['\x7d']) =
      some [.text (d :: '\x7b' :: name ++ ['\x7d'])] := by
    rw [scan_item hd h]
    simp [Part.scan, Part.Open.pieces]
  rw [tokenize, Part.outline, hscan]
  show Except.ok (Tokenized.mk _ (partsTokens _ _).1) = _
  simp only [partsTokens, partTokens, runTokens_item hd h, List.append_nil]

end Item

end Routing.Pattern
