import Routing.Proofs.Highlight.Pieces
import Routing.Proofs.Pattern.QuerySuffix

/-!
# The names among the pieces

Of the pieces of a pattern those count here that are names, of variables or of query variables (`names`). They are found
one character after the other: outside of captures by what a brace or a question mark stands before (`names_variable`,
`names_capture`, `names_question`), inside of captures there are none, and in a query suffix there are its attributes
(`names_query_attribute`). Newlines at the ends of a text do not matter, so the names of a pattern are those of its text
with its line ends made newlines (`names_prepare`).
-/

namespace Routing.Highlight

open Pattern

/-- Whether a piece is a name. -/
def Piece.isName (p : Piece) : Bool := p.kind == .variable || p.kind == .attribute

/-- The names among the pieces of a text in some modes. -/
def names (modes : List Mode) (t : Text) : List Piece := (cut modes t).filter Piece.isName

theorem names_nil (modes : List Mode) : names modes [] = [] := by rw [names, cut, List.filter_nil]

theorem names_cons (modes : List Mode) (c : Char) (rest : Text) :
    names modes (c :: rest) = (step modes c rest).1.filter Piece.isName ++
      names (step modes c rest).2.1 (step modes c rest).2.2 := by
  rw [names, cut, List.filter_append, names]

/-- What a step without names leaves has all the names. -/
theorem names_of_step (pieces : List Piece) {modes after : List Mode} {c : Char} {rest left : Text}
    (h : step modes c rest = (pieces, after, left)) (hpieces : pieces.filter Piece.isName = []) :
    names modes (c :: rest) = names after left := by
  rw [names_cons, h, hpieces, List.nil_append]

/-! ### Outside of captures -/

section Outer

variable {rest name after : Text}

theorem names_question (h : queryAhead rest = true) : names [] ('?' :: rest) = names [.query] rest := by
  refine names_of_step [⟨.keyword, ['?']⟩] ?_ rfl
  simp [step, applyFirst, rulesOf, outerRules, Shape.take, h, Turn.apply]

theorem names_capture (h : nameAhead rest = some (name, ':', after)) :
    names [] ('\x7b' :: rest) = ⟨.variable, name⟩ :: names [.capture] after := by
  rw [names_cons, show step [] '\x7b' rest =
    ([⟨.punctuation, ['\x7b']⟩, ⟨.variable, name⟩, ⟨.punctuation, [':']⟩], [.capture], after) by
      simp [step, applyFirst, rulesOf, outerRules, Shape.take, h, Turn.apply]]
  rfl

theorem names_variable (h : nameAhead rest = some (name, '\x7d', after)) :
    names [] ('\x7b' :: rest) = ⟨.variable, name⟩ :: names [] after := by
  rw [names_cons, show step [] '\x7b' rest =
    ([⟨.punctuation, ['\x7b']⟩, ⟨.variable, name⟩, ⟨.punctuation, ['\x7d']⟩], [], after) by
      simp [step, applyFirst, rulesOf, outerRules, Shape.take, h, Turn.apply]]
  rfl

theorem Shape.take_named_eq_none (kind : PieceKind) {last : Char}
    (h : ∀ name c after, nameAhead rest = some (name, c, after) → c ≠ last) :
    (Shape.named kind last).take ('\x7b' :: rest) = none := by
  rw [take]
  split
  · next hname => rw [if_neg (h _ _ _ hname)]
  · rfl

/-- A brace before no variable is text. -/
theorem names_brace (h : ∀ name c after, nameAhead rest = some (name, c, after) → c ≠ ':' ∧ c ≠ '\x7d') :
    names [] ('\x7b' :: rest) = names [] rest := by
  have hcapture := Shape.take_named_eq_none .variable fun name c after hname => (h name c after hname).1
  have hvariable := Shape.take_named_eq_none .variable fun name c after hname => (h name c after hname).2
  refine names_of_step [⟨.text, ['\x7b']⟩] ?_ rfl
  rw [step, applyFirst, rulesOf, outerRules, List.findSome?_cons, List.findSome?_cons, List.findSome?_cons, hcapture,
    hvariable]
  simp [Shape.take, isPlain, isInLine, Turn.apply]

/-- Plain text has no names. -/
theorem names_dropWhile (t : Text) : names [] (t.dropWhile isPlain) = names [] t := by
  cases t with
  | nil => rfl
  | cons c rest =>
    by_cases hc : isPlain c = true
    · rw [List.dropWhile_cons_of_pos hc, eq_comm]
      have hne : c ≠ '?' ∧ c ≠ '\x7b' ∧ c ≠ '\x7d' ∧ c ≠ '[' ∧ c ≠ ']' := by simpa [isPlain] using hc
      refine names_of_step [⟨.text, c :: rest.takeWhile isPlain⟩] ?_ rfl
      simp [step, applyFirst, rulesOf, outerRules, Shape.take, hc, hne, Turn.apply]
    · rw [List.dropWhile_cons_of_neg hc]

theorem names_plain {c : Char} (h : isPlain c = true) (rest : Text) : names [] (c :: rest) = names [] rest := by
  rw [← names_dropWhile (c :: rest), List.dropWhile_cons_of_pos h, names_dropWhile]

theorem names_bracket {c : Char} (h : c = '[' ∨ c = ']' ∨ c = '\x7d') (rest : Text) :
    names [] (c :: rest) = names [] rest := by
  rcases h with rfl | rfl | rfl
  · refine names_of_step [⟨.punctuation, ['[']⟩] ?_ rfl
    simp [step, applyFirst, rulesOf, outerRules, Shape.take, Turn.apply]
  · by_cases hrepeated : ∃ c more, rest = c :: more ∧ (c = '*' ∨ c = '+')
    -- the operator is taken with the bracket, but it is plain too
    · obtain ⟨c, more, rfl, hc⟩ := hrepeated
      have hplain : isPlain c = true := by rcases hc with rfl | rfl <;> rfl
      rw [names_plain hplain]
      refine names_of_step [⟨.punctuation, [']']⟩, ⟨.operator, [c]⟩] ?_ rfl
      simp [step, applyFirst, rulesOf, outerRules, Shape.take, Turn.apply, hc]
    · refine names_of_step [⟨.punctuation, [']']⟩] ?_ rfl
      have hnone : Shape.repeated.take (']' :: rest) = none := by
        cases rest with
        | nil => rfl
        | cons c more => exact if_neg fun hc => hrepeated ⟨c, more, rfl, hc⟩
      rw [step, applyFirst, rulesOf, outerRules]
      simp only [List.findSome?_cons, hnone]
      simp [Shape.take, Turn.apply]
  · refine names_of_step [⟨.text, ['\x7d']⟩] ?_ rfl
    simp [step, applyFirst, rulesOf, outerRules, Shape.take, Turn.apply, isPlain, isInLine]

/-- A character that starts neither a query suffix nor a variable is no name and none begins with it. -/
theorem names_other {c : Char} (hquestion : c = '?' → queryAhead rest = false) (hbrace : c ≠ '\x7b') :
    names [] (c :: rest) = names [] rest := by
  by_cases hplain : isPlain c = true
  · exact names_plain hplain rest
  · by_cases hc : c = '?'
    · subst hc
      refine names_of_step [⟨.text, ['?']⟩] ?_ rfl
      simp [step, applyFirst, rulesOf, outerRules, Shape.take, Turn.apply, isPlain, isInLine, hquestion rfl]
    · refine names_bracket ?_ rest
      have hspecial : c = '\x7d' ∨ c = '[' ∨ c = ']' := by
        by_contra hnone
        simp_all [isPlain]
      rcases hspecial with h | h | h <;> simp [h]

end Outer

/-! ### Inside of captures -/

section Inner

variable {inner : Mode} (hinner : inner ≠ .query) (around : List Mode)

include hinner

theorem names_inner_open (rest : Text) :
    names (inner :: around) ('\x7b' :: rest) = names (.nested :: inner :: around) rest := by
  refine names_of_step [⟨.capture, ['\x7b']⟩] ?_ rfl
  cases inner with
  | capture => simp [step, applyFirst, rulesOf, captureRules, Shape.take, Turn.apply]
  | nested => simp [step, applyFirst, rulesOf, nestedRules, Shape.take, Turn.apply]
  | query => exact absurd rfl hinner

theorem names_inner_close (rest : Text) : names (inner :: around) ('\x7d' :: rest) = names around rest := by
  cases inner with
  | capture =>
    refine names_of_step [⟨.punctuation, ['\x7d']⟩] ?_ rfl
    simp [step, applyFirst, rulesOf, captureRules, Shape.take, Turn.apply]
  | nested =>
    refine names_of_step [⟨.capture, ['\x7d']⟩] ?_ rfl
    simp [step, applyFirst, rulesOf, nestedRules, Shape.take, Turn.apply]
  | query => exact absurd rfl hinner

theorem names_inner_dropWhile (t : Text) :
    names (inner :: around) (t.dropWhile isNoBrace) = names (inner :: around) t := by
  cases t with
  | nil => rfl
  | cons c rest =>
    by_cases hc : isNoBrace c = true
    · rw [List.dropWhile_cons_of_pos hc, eq_comm]
      have hne : c ≠ '\x7b' ∧ c ≠ '\x7d' := by simpa [isNoBrace] using hc
      refine names_of_step [⟨.capture, c :: rest.takeWhile isNoBrace⟩] ?_ rfl
      cases inner with
      | capture => simp [step, applyFirst, rulesOf, captureRules, Shape.take, hc, hne, Turn.apply]
      | nested => simp [step, applyFirst, rulesOf, nestedRules, Shape.take, hc, hne, Turn.apply]
      | query => exact absurd rfl hinner
    · rw [List.dropWhile_cons_of_neg hc]

theorem names_inner_other {c : Char} (h : c ≠ '\x7b' ∧ c ≠ '\x7d') (rest : Text) :
    names (inner :: around) (c :: rest) = names (inner :: around) rest := by
  have hc : isNoBrace c = true := by simpa [isNoBrace] using h
  rw [← names_inner_dropWhile hinner around (c :: rest), List.dropWhile_cons_of_pos hc,
    names_inner_dropWhile hinner around]

end Inner

/-! ### Inside of query suffixes -/

section Query

variable (around : List Mode) {rest name after : Text}

theorem names_query_newline : names (.query :: around) ('\n' :: rest) = names [] rest := by
  refine names_of_step [⟨.whitespace, ['\n']⟩] ?_ rfl
  simp [step, applyFirst, rulesOf, queryRules, Shape.take, Turn.apply, isInLine]

theorem names_query_attribute (h : nameAhead rest = some (name, '\x7d', after)) :
    names (.query :: around) ('\x7b' :: rest) = ⟨.attribute, name⟩ :: names (.query :: around) after := by
  rw [names_cons, show step (.query :: around) '\x7b' rest =
    ([⟨.punctuation, ['\x7b']⟩, ⟨.attribute, name⟩, ⟨.punctuation, ['\x7d']⟩], .query :: around, after) by
      simp [step, applyFirst, rulesOf, queryRules, Shape.take, h, Turn.apply]]
  rfl

theorem names_query_other {c : Char} (hline : c ≠ '\n')
    (hbrace : c = '\x7b' → ∀ name c after, nameAhead rest = some (name, c, after) → c ≠ '\x7d') :
    names (.query :: around) (c :: rest) = names (.query :: around) rest := by
  by_cases hopen : c = '\x7b'
  · subst hopen
    have hnamed := Shape.take_named_eq_none .attribute (hbrace rfl)
    refine names_of_step [⟨.text, ['\x7b']⟩] ?_ rfl
    rw [step, applyFirst, rulesOf, queryRules, List.findSome?_cons, hnamed]
    simp [Shape.take, isInLine, Turn.apply]
  · by_cases hand : c = '&'
    · subst hand
      refine names_of_step [⟨.keyword, ['&']⟩] ?_ rfl
      simp [step, applyFirst, rulesOf, queryRules, Shape.take, Turn.apply]
    · refine names_of_step [⟨.text, [c]⟩] ?_ rfl
      simp [step, applyFirst, rulesOf, queryRules, Shape.take, Turn.apply, isInLine, hline, hopen, hand]

end Query

/-! ### Names before other text -/

theorem parts_of_nameAhead {t name after : Text} {c : Char} (h : nameAhead t = some (name, c, after)) :
    t.takeWhile Text.isWord = name ∧ t.dropWhile Text.isWord = c :: after := by
  simp only [nameAhead] at h
  split at h
  · cases h
  · split at h
    · next hdrop =>
      obtain ⟨rfl, rfl, rfl⟩ : t.takeWhile Text.isWord = name ∧ _ = c ∧ _ = after := by simpa using h
      exact ⟨rfl, hdrop⟩
    · cases h

theorem nameAhead_eq_some_iff {t name after : Text} {c : Char} :
    nameAhead t = some (name, c, after) ↔ IsName name ∧ Text.isWord c = false ∧ t = name ++ c :: after := by
  constructor
  · intro h
    obtain ⟨htake, hdrop⟩ := parts_of_nameAhead h
    have hc := List.head?_dropWhile_not Text.isWord t
    rw [hdrop] at hc
    refine ⟨⟨ne_nil_of_nameAhead h, fun d hd => ?_⟩, by simpa using hc, eq_of_nameAhead h⟩
    rw [← htake] at hd
    exact List.mem_takeWhile_imp hd
  · rintro ⟨hname, hc, rfl⟩
    have htake : (name ++ c :: after).takeWhile Text.isWord = name := by
      rw [List.takeWhile_append_of_pos hname.2, List.takeWhile_cons_of_neg (by simp [hc]), List.append_nil]
    have hdrop : (name ++ c :: after).dropWhile Text.isWord = c :: after := by
      rw [List.dropWhile_append_of_pos hname.2, List.dropWhile_cons_of_neg (by simp [hc])]
    simp only [nameAhead, htake, hdrop]
    simp [hname.1]

theorem nameAhead_append {t name after : Text} {c : Char} (h : nameAhead t = some (name, c, after)) (y : Text) :
    nameAhead (t ++ y) = some (name, c, after ++ y) := by
  rw [nameAhead_eq_some_iff] at h ⊢
  exact ⟨h.1, h.2.1, by rw [h.2.2, List.append_assoc, List.cons_append]⟩

/-- A newline behind a text does not end a name in it in another way. -/
theorem nameAhead_of_append_newline {t name after : Text} {c : Char}
    (h : nameAhead (t ++ ['\n']) = some (name, c, after)) (hc : c ≠ '\n') :
    ∃ before, nameAhead t = some (name, c, before) ∧ after = before ++ ['\n'] := by
  obtain ⟨hname, hword, ht⟩ := nameAhead_eq_some_iff.mp h
  rcases List.eq_nil_or_concat' after with rfl | ⟨before, d, rfl⟩
  · exact absurd (List.append_inj_right' ht rfl) (by simpa using Ne.symm hc)
  · rw [← List.cons_append, ← List.append_assoc] at ht
    obtain ⟨rfl, hd⟩ := List.append_inj' ht rfl
    exact ⟨before, nameAhead_eq_some_iff.mpr ⟨hname, hword, rfl⟩, by rw [hd]⟩

theorem queryAhead_eq_true_iff {t : Text} :
    queryAhead t = true ↔ ∃ rest name after, t = '\x7b' :: rest ∧ nameAhead rest = some (name, '\x7d', after) := by
  constructor
  · intro h
    unfold queryAhead at h
    split at h
    · split at h
      · next hname => exact ⟨_, _, _, rfl, hname⟩
      · cases h
    · cases h
  · rintro ⟨rest, name, after, rfl, hname⟩
    simp [queryAhead, hname]

theorem queryAhead_append_newline (t : Text) : queryAhead (t ++ ['\n']) = queryAhead t := by
  rw [Bool.eq_iff_iff, queryAhead_eq_true_iff, queryAhead_eq_true_iff]
  constructor
  · rintro ⟨rest, name, after, ht, hname⟩
    cases t with
    | nil => cases ht
    | cons c t =>
      obtain ⟨rfl, rfl⟩ := List.cons.inj ht
      obtain ⟨before, hbefore, -⟩ := nameAhead_of_append_newline hname (by decide)
      exact ⟨t, name, before, rfl, hbefore⟩
  · rintro ⟨rest, name, after, rfl, hname⟩
    exact ⟨_, name, _, rfl, nameAhead_append hname _⟩

/-! ### Newlines around a text -/

section Newline

/-! One more newline at the end of a text adds no name where it adds none to what is left after the first names. -/

variable {c : Char} {t : Text} (hrest : ∀ modes, names modes (t ++ ['\n']) = names modes t)
  (hname : ∀ {name after d}, nameAhead t = some (name, d, after) →
    ∀ modes, names modes (after ++ ['\n']) = names modes after)

include hrest hname

theorem names_brace_append_newline : names [] ('\x7b' :: (t ++ ['\n'])) = names [] ('\x7b' :: t) := by
  by_cases hvariable : ∃ name d after, nameAhead t = some (name, d, after) ∧ (d = ':' ∨ d = '\x7d')
  · obtain ⟨name, d, after, h, rfl | rfl⟩ := hvariable
    · rw [names_capture (nameAhead_append h _), names_capture h, hname h]
    · rw [names_variable (nameAhead_append h _), names_variable h, hname h]
  · have hnone : ∀ name d after, nameAhead t = some (name, d, after) → d ≠ ':' ∧ d ≠ '\x7d' :=
      fun name d after h => not_or.mp fun hd => hvariable ⟨name, d, after, h, hd⟩
    rw [names_brace fun name d after h => not_or.mp fun hd => ?_, names_brace hnone, hrest]
    obtain ⟨before, hbefore, -⟩ := nameAhead_of_append_newline h (by rcases hd with rfl | rfl <;> decide)
    exact hvariable ⟨name, d, before, hbefore, hd⟩

theorem names_outer_append_newline : names [] (c :: (t ++ ['\n'])) = names [] (c :: t) := by
  by_cases hopen : c = '\x7b'
  · rw [hopen, names_brace_append_newline hrest hname]
  · by_cases hquestion : c = '?' ∧ queryAhead t = true
    · obtain ⟨rfl, hquery⟩ := hquestion
      rw [names_question ((queryAhead_append_newline t).trans hquery), names_question hquery, hrest]
    · have hnone : c = '?' → queryAhead t = false := fun hc => by simpa [hc] using hquestion
      rw [names_other (fun hc => (queryAhead_append_newline t).trans (hnone hc)) hopen, names_other hnone hopen, hrest]

theorem names_query_append_newline (around : List Mode) :
    names (.query :: around) (c :: (t ++ ['\n'])) = names (.query :: around) (c :: t) := by
  by_cases hline : c = '\n'
  · rw [hline, names_query_newline, names_query_newline, hrest]
  · by_cases hattribute : c = '\x7b' ∧ ∃ name after, nameAhead t = some (name, '\x7d', after)
    · obtain ⟨rfl, name, after, h⟩ := hattribute
      rw [names_query_attribute _ (nameAhead_append h _), names_query_attribute _ h, hname h]
    · rw [names_query_other _ hline, names_query_other _ hline, hrest]
      · rintro hc name d after h rfl
        exact hattribute ⟨hc, name, after, h⟩
      · rintro hc name d after h rfl
        obtain ⟨before, hbefore, -⟩ := nameAhead_of_append_newline h (by decide)
        exact hattribute ⟨hc, name, before, hbefore⟩

omit hname in
theorem names_inner_append_newline {inner : Mode} (hinner : inner ≠ .query) (around : List Mode) :
    names (inner :: around) (c :: (t ++ ['\n'])) = names (inner :: around) (c :: t) := by
  by_cases hopen : c = '\x7b'
  · rw [hopen, names_inner_open hinner, names_inner_open hinner, hrest]
  · by_cases hclose : c = '\x7d'
    · rw [hclose, names_inner_close hinner, names_inner_close hinner, hrest]
    · rw [names_inner_other hinner around ⟨hopen, hclose⟩, names_inner_other hinner around ⟨hopen, hclose⟩, hrest]

end Newline

/-- One more newline at the end adds no name. -/
theorem names_append_newline (modes : List Mode) (t : Text) : names modes (t ++ ['\n']) = names modes t := by
  induction hn : t.length using Nat.strongRecOn generalizing modes t with
  | _ n ih =>
    cases t with
    | nil =>
      rcases modes with _ | ⟨_ | _ | _, modes⟩
      · exact names_plain (by rfl) []
      · exact names_inner_other (by decide) modes (by decide) []
      · exact names_inner_other (by decide) modes (by decide) []
      · exact (names_query_newline modes).trans (by rw [names_nil, names_nil])
    | cons c t =>
      have hrest : ∀ modes, names modes (t ++ ['\n']) = names modes t := fun modes => ih _ (by simp [← hn]) modes t rfl
      have hname : ∀ {name after d}, nameAhead t = some (name, d, after) → ∀ modes,
          names modes (after ++ ['\n']) = names modes after := by
        intro name after d h modes
        have hlength := congrArg List.length (eq_of_nameAhead h)
        refine ih _ ?_ modes after rfl
        simp only [List.length_append, List.length_cons] at hlength hn
        omega
      rcases modes with _ | ⟨inner, around⟩
      · exact names_outer_append_newline hrest hname
      · by_cases hquery : inner = .query
        · rw [hquery]
          exact names_query_append_newline hrest hname around
        · exact names_inner_append_newline hrest hquery around

theorem names_append_newlines (modes : List Mode) (t : Text) (k : Nat) :
    names modes (t ++ List.replicate k '\n') = names modes t := by
  induction k with
  | zero => rw [List.replicate_zero, List.append_nil]
  | succ k ih => rw [List.replicate_succ', ← List.append_assoc, names_append_newline, ih]

/-- The names of a pattern are those of its text. What is done to the text before it is cut changes its line ends
only. -/
theorem names_prepare (t : Text) : names [] (prepare t) = names [] (unifyLines t) := by
  have hmark : names [] (unifyLines (dropOrderMark t)) = names [] (unifyLines t) := by
    unfold dropOrderMark
    split
    · exact (names_plain (by rfl) _).symm
    · rfl
  have hsplit := Text.dropTrailing_append_replicate '\n' (Text.dropLeading '\n' (unifyLines (dropOrderMark t)))
  rw [prepare, Text.strip, names_append_newline, ← names_append_newlines, hsplit,
    Text.apply_dropLeading (names_plain (by rfl)), hmark]

end Routing.Highlight
