import Mathlib
import Routing.Proofs.Pattern.Rule

/-!
# Which token trees have a rule

`tokensRule` sees a variable that is declared twice only when it adds the variables of a group to those before the
group, and it counts the variables of a repeated group only where that group stands in no other one. Together the two
checks come to conditions on the whole tree: no name stands in it twice, and no repeated group, at whatever depth, has
more than one variable.

That a tree with these properties has a rule is shown from the other side: every error says what is wrong with the
tree (`Refusal`), and here nothing is.
-/

namespace Routing.Pattern

/-! ### Where a token stands -/

/-- That a token stands among some tokens or somewhere in a group of them. `around` holds the suffix and the pattern
of each group around it, the outermost one first. -/
inductive Token.StandsIn (token : Token) : List (Suffix × Text) → List Token → Prop
  | here {ts : List Token} (h : token ∈ ts) : StandsIn token [] ts
  | inside {around : List (Suffix × Text)} {suffix : Suffix} {binds : Option Text} {raw : Text}
    {children ts : List Token} (hgroup : .group suffix binds raw children ∈ ts)
    (h : StandsIn token around children) : StandsIn token ((suffix, raw) :: around) ts

section StandsIn

variable {token first : Token} {around : List (Suffix × Text)} {ts : List Token}

theorem not_standsIn_nil : ¬ token.StandsIn around [] := by
  rintro (h | ⟨hgroup, -⟩)
  · cases h
  · cases hgroup

theorem Token.StandsIn.later (h : token.StandsIn around ts) (first : Token) : token.StandsIn around (first :: ts) := by
  cases h with
  | here h => exact .here (List.mem_cons_of_mem _ h)
  | inside hgroup h => exact .inside (List.mem_cons_of_mem _ hgroup) h

theorem standsIn_cons : token.StandsIn around (first :: ts) ↔
    token = first ∧ around = [] ∨
      (∃ suffix binds raw children inner, first = .group suffix binds raw children ∧
        around = (suffix, raw) :: inner ∧ token.StandsIn inner children) ∨
      token.StandsIn around ts := by
  constructor
  · rintro (h | ⟨hgroup, h⟩)
    · rcases List.mem_cons.mp h with rfl | h
      · exact .inl ⟨rfl, rfl⟩
      · exact .inr (.inr (.here h))
    · rcases List.mem_cons.mp hgroup with rfl | hgroup
      · exact .inr (.inl ⟨_, _, _, _, _, rfl, rfl, h⟩)
      · exact .inr (.inr (.inside hgroup h))
  · rintro (⟨rfl, rfl⟩ | ⟨suffix, binds, raw, children, inner, rfl, rfl, h⟩ | h)
    · exact .here List.mem_cons_self
    · exact .inside List.mem_cons_self h
    · exact h.later first

theorem names_sublist_of_mem (h : token ∈ ts) : token.names.Sublist (namesOf ts) := by
  induction ts with
  | nil => cases h
  | cons first rest ih =>
    rw [namesOf]
    rcases List.mem_cons.mp h with rfl | h
    · exact List.sublist_append_left _ _
    · exact (ih h).trans (List.sublist_append_right _ _)

/-- The variables of a part are some of all variables, in the same order. -/
theorem Token.StandsIn.names_sublist (h : token.StandsIn around ts) : token.names.Sublist (namesOf ts) := by
  induction h with
  | here h => exact names_sublist_of_mem h
  | inside hgroup _ ih =>
    refine ih.trans ?_
    simpa [Token.names] using names_sublist_of_mem hgroup

end StandsIn

/-! ### The variables of a tree by their places -/

/-- The pattern of the outermost repeated group of some groups that stand in each other. -/
def outermostRepeated : List (Suffix × Text) → Option Text
  | [] => none
  | (suffix, raw) :: inner => if suffix.repeats then some raw else outermostRepeated inner

theorem or_outermostRepeated_cons (inside : Option Text) (suffix : Suffix) (raw : Text)
    (inner : List (Suffix × Text)) :
    inside.or (outermostRepeated ((suffix, raw) :: inner)) =
      (within inside suffix raw).or (outermostRepeated inner) := by
  cases inside <;> cases h : suffix.repeats <;> simp [outermostRepeated, within, h]

/-- The variables of a tree are those that stand in it, each with the outermost repeated group around it. -/
theorem mem_varsOf_iff {inside : Option Text} {ts : List Token} {v : Variable} :
    v ∈ varsOf inside ts ↔ ∃ around capture, (Token.variable v.name capture).StandsIn around ts ∧
      v.repeated = inside.or (outermostRepeated around) := by
  induction ts using tokens_induction generalizing inside with
  | nil => simp [varsOf, not_standsIn_nil]
  | literal text rest ih => simp [varsOf, standsIn_cons, ih]
  | var name capture rest ih =>
    have hhead : v = ⟨name, inside⟩ ↔ ∃ around own, (Token.variable v.name own = .variable name capture ∧
        around = []) ∧ v.repeated = inside.or (outermostRepeated around) := by
      cases v
      simp [outermostRepeated]
    rw [varsOf, List.mem_cons, hhead, ih]
    simp only [standsIn_cons, reduceCtorEq, false_and, exists_false, false_or, or_and_right, exists_or]
  | group suffix binds raw children rest ihc ih =>
    rw [varsOf, List.mem_append]
    constructor
    · rintro (h | h)
      · obtain ⟨inner, capture, hstands, hrepeated⟩ := ihc.mp h
        exact ⟨_, capture, .inside List.mem_cons_self hstands, hrepeated.trans (or_outermostRepeated_cons ..).symm⟩
      · obtain ⟨around, capture, hstands, hrepeated⟩ := ih.mp h
        exact ⟨around, capture, hstands.later _, hrepeated⟩
    · rintro ⟨around, capture, hstands, hrepeated⟩
      rcases standsIn_cons.mp hstands with ⟨hvariable, -⟩ | ⟨_, _, _, _, inner, hgroup, rfl, hstands⟩ | hstands
      · cases hvariable
      · cases hgroup
        exact .inl (ihc.mpr ⟨inner, capture, hstands, hrepeated.trans (or_outermostRepeated_cons ..)⟩)
      · exact .inr (ih.mpr ⟨around, capture, hstands, hrepeated⟩)

/-! ### What is wrong with a tree that has no rule -/

/-- Whether a group stands among some tokens, in no repeated one. -/
inductive Outermost (suffix : Suffix) (raw : Text) (children : List Token) : List Token → Prop
  | here {binds rest} : Outermost suffix raw children (.group suffix binds raw children :: rest)
  | under {binds around inner rest} (h : Outermost suffix raw children inner) :
    Outermost suffix raw children (.group .optional binds around inner :: rest)
  | later {token rest} (h : Outermost suffix raw children rest) : Outermost suffix raw children (token :: rest)

/-- Whether a repeated group of the pattern `raw`, which stands in no other one, has more than one variable. -/
def Crowded (raw : Text) (ts : List Token) : Prop :=
  ∃ suffix children, Outermost suffix raw children ts ∧ suffix.repeats = true ∧ 1 < (namesOf children).length

/-- What an error says of some tokens, which stand in the repeated group `inside` and come after the variables in
`declared`. -/
inductive Refusal (inside : Option Text) (declared : List Text) (ts : List Token) : PatternError → Prop
  | duplicate {name : Text} (h : List.Duplicate name (declared ++ namesOf ts)) :
    Refusal inside declared ts (.duplicate name)
  | cardinality {raw : Text} (hinside : inside = none) (h : Crowded raw ts) :
    Refusal inside declared ts (.cardinality raw)

theorem Crowded.cons {raw : Text} {ts : List Token} (h : Crowded raw ts) (first : Token) :
    Crowded raw (first :: ts) := by
  obtain ⟨suffix, children, houtermost, hgroup⟩ := h
  exact ⟨suffix, children, .later houtermost, hgroup⟩

namespace Refusal

variable {inside : Option Text} {declared : List Text} {first : Token} {ts : List Token} {e : PatternError}

theorem of_rest (h : Refusal inside (declared ++ first.names) ts e) : Refusal inside declared (first :: ts) e := by
  cases h with
  | duplicate h => exact .duplicate (by simpa [namesOf] using h)
  | cardinality hinside h => exact .cardinality hinside (h.cons first)

/-- What is wrong inside of a group is wrong with all tokens. -/
theorem of_children {suffix : Suffix} {binds : Option Text} {raw : Text} {children : List Token}
    (h : Refusal (within inside suffix raw) [] children e) :
    Refusal inside declared (.group suffix binds raw children :: ts) e := by
  cases h with
  | @duplicate name h =>
    have hsub : (namesOf children).Sublist (declared ++ (namesOf children ++ namesOf ts)) :=
      (List.sublist_append_left _ _).trans (List.sublist_append_right _ _)
    exact .duplicate (by simpa [namesOf, Token.names] using h.mono_sublist hsub)
  | cardinality hwithin h =>
    obtain ⟨own, inner, houtermost, hgroup⟩ := h
    -- no repeated group is around the children: this one is not repeated, and none is around it
    have hsome := isSome_within inside suffix raw
    simp only [hwithin, Option.isSome_none, Bool.false_eq, Bool.or_eq_false_iff] at hsome
    obtain rfl : suffix = .optional := by cases suffix <;> simp_all [Suffix.repeats]
    exact .cardinality (by simpa using hsome.1) ⟨own, inner, .under houtermost, hgroup⟩

end Refusal

theorem error_of_declare {declared more : List Variable} {e : PatternError} (h : declare declared more = .error e) :
    ∃ name, e = .duplicate name ∧
      List.Duplicate name (declared.map Variable.name ++ more.map Variable.name) := by
  induction more generalizing declared with
  | nil => cases h
  | cons v rest ih =>
    rw [declare] at h
    split at h
    · next hold =>
      refine ⟨v.name, (Except.error.inj h).symm, ?_⟩
      rw [List.duplicate_iff_sublist]
      have hdeclared : [v.name].Sublist (declared.map Variable.name) := by simpa using hold
      exact hdeclared.append (by simp)
    · simpa using ih h

theorem names_of_rule {inside : Option Text} {t : Token} {r : Rule} (h : t.rule inside = .ok r) :
    r.names = t.names := by
  rcases t with text | ⟨name, capture⟩ | ⟨suffix, binds, raw, children⟩
  · rw [Token.rule, Except.ok.injEq] at h
    simp [← h, Rule.names, Token.names]
  · cases inside
    all_goals
      rw [Token.rule, Except.ok.injEq] at h
      simp [← h, Rule.names, Token.names]
  · obtain ⟨inner, hinner, -, rfl⟩ := rule_group_eq_ok h
    rw [tokensRule_eq_ok hinner]
    simp [Rule.names, Token.names, map_name_varsOf]

/-- An error comes from the first token, from its variables after those before it, or from the tokens after it. -/
theorem error_of_tokensRule_cons {inside : Option Text} {before : Rule} {first : Token} {rest : List Token}
    {e : PatternError} (h : tokensRule inside before (first :: rest) = .error e) :
    first.rule inside = .error e ∨ Refusal inside before.names (first :: rest) e ∨
      ∃ after : Rule, after.names = before.names ++ first.names ∧ tokensRule inside after rest = .error e := by
  rw [tokensRule] at h
  rcases bind_eq_error.mp h with h | ⟨one, hone, h⟩
  · exact .inl h
  have hnames : one.vars.map Variable.name = first.names := names_of_rule hone
  rcases bind_eq_error.mp h with h | ⟨vars, hvars, h⟩
  · obtain ⟨name, rfl, hname⟩ := error_of_declare h
    rw [hnames] at hname
    refine .inr (.inl (.duplicate ?_))
    rw [namesOf, ← List.append_assoc]
    exact hname.mono_sublist (List.sublist_append_left _ _)
  · refine .inr (.inr ⟨_, ?_, h⟩)
    simp [Rule.names, declare_eq_ok hvars, hnames]

/-- An error of a rule is true of the tokens. -/
theorem refusal_of_tokensRule {inside : Option Text} {before : Rule} {ts : List Token} {e : PatternError}
    (h : tokensRule inside before ts = .error e) : Refusal inside before.names ts e := by
  induction ts using tokens_induction generalizing inside before with
  | nil => cases h
  | literal text rest ih =>
    rcases error_of_tokensRule_cons h with h | h | ⟨after, hafter, h⟩
    · cases h
    · exact h
    · exact .of_rest (hafter ▸ ih h)
  | var name capture rest ih =>
    rcases error_of_tokensRule_cons h with h | h | ⟨after, hafter, h⟩
    · cases inside <;> cases h
    · exact h
    · exact .of_rest (hafter ▸ ih h)
  | group suffix binds raw children rest ihc ih =>
    rcases error_of_tokensRule_cons h with h | h | ⟨after, hafter, h⟩
    · rw [rule_group] at h
      rcases bind_eq_error.mp h with h | ⟨inner, hinner, h⟩
      · exact .of_children (ihc h)
      split at h
      · next hmany =>
        obtain ⟨⟨hrep, hinside⟩, hmany⟩ : (suffix.repeats = true ∧ inside = none) ∧ 1 < inner.vars.length := by
          simpa using hmany
        cases h
        rw [tokensRule_eq_ok hinner] at hmany
        refine .cardinality hinside ⟨suffix, children, .here, hrep, ?_⟩
        rw [← map_name_varsOf (within inside suffix raw) children, List.length_map]
        simpa using hmany
      · cases h
    · exact h
    · exact .of_rest (hafter ▸ ih h)

/-! ### The trees that have a rule -/

theorem OneEach.of_outermost {suffix : Suffix} {raw : Text} {children ts : List Token} (h : OneEach ts)
    (houtermost : Outermost suffix raw children ts) (hrep : suffix.repeats = true) :
    (namesOf children).length ≤ 1 := by
  induction houtermost with
  | here =>
    rw [OneEach, if_pos hrep] at h
    exact h.1
  | under _ ih =>
    rw [OneEach] at h
    exact ih h.1
  | @later token rest _ ih =>
    cases token <;> rw [OneEach] at h
    · exact ih h
    · exact ih h
    · exact ih h.2

/-- The rule of a token tree: it is there exactly if no variable is declared twice and no repeated group has two of
them, and then it is what the tokens say. -/
theorem rule_eq_ok_iff {t : Tokenized} {r : Rule} : t.rule = .ok r ↔
    (namesOf t.tokens).Nodup ∧ OneEach t.tokens ∧ r = ⟨regexOf false t.tokens, varsOf none t.tokens⟩ := by
  constructor
  · intro h
    have hr : r = ⟨regexOf false t.tokens, varsOf none t.tokens⟩ := tokensRule_eq_ok h
    have hnodup := nodup_of_tokensRule h List.nodup_nil
    rw [hr, map_name_varsOf] at hnodup
    exact ⟨hnodup, oneEach_of_tokensRule h, hr⟩
  · rintro ⟨hnodup, hone, rfl⟩
    cases h : t.rule with
    | ok r => exact congrArg Except.ok (tokensRule_eq_ok h)
    | error e =>
      cases refusal_of_tokensRule h with
      | duplicate htwice => exact absurd hnodup htwice.not_nodup
      | cardinality _ hcrowded =>
        obtain ⟨suffix, children, houtermost, hrep, hmany⟩ := hcrowded
        exact absurd (hone.of_outermost houtermost hrep) (by omega)

theorem OneEach.of_mem {suffix : Suffix} {binds : Option Text} {raw : Text} {children ts : List Token}
    (h : OneEach ts) (hgroup : .group suffix binds raw children ∈ ts) :
    if suffix.repeats then (namesOf children).length ≤ 1 else OneEach children := by
  induction ts using tokens_induction with
  | nil => cases hgroup
  | literal text rest ih =>
    rw [OneEach] at h
    exact ih h (by simpa using hgroup)
  | var name capture rest ih =>
    rw [OneEach] at h
    exact ih h (by simpa using hgroup)
  | group _ _ _ _ rest _ ih =>
    rw [OneEach] at h
    rcases List.mem_cons.mp hgroup with hfirst | hgroup
    · cases hfirst
      exact h.1
    · exact ih h.2 hgroup

/-- What holds of the outermost repeated groups holds of those in them. -/
theorem OneEach.of_standsIn {around : List (Suffix × Text)} {token : Token} {ts : List Token} (h : OneEach ts)
    (hstands : token.StandsIn around ts) {suffix : Suffix} {binds : Option Text} {raw : Text} {children : List Token}
    (htoken : token = .group suffix binds raw children) (hrep : suffix.repeats = true) :
    (namesOf children).length ≤ 1 := by
  induction hstands with
  | here hmem =>
    have hown := h.of_mem (htoken ▸ hmem)
    rwa [if_pos hrep] at hown
  | inside hgroup hinner ih =>
    have houter := h.of_mem hgroup
    split at houter
    · subst htoken
      exact Nat.le_trans hinner.names_sublist.length_le houter
    · exact ih houter

/-- It is enough to look at the outermost repeated groups. -/
theorem oneEach_iff {ts : List Token} : OneEach ts ↔ ∀ around suffix binds raw children,
    (Token.group suffix binds raw children).StandsIn around ts → suffix.repeats = true →
      (namesOf children).length ≤ 1 := by
  refine ⟨fun h _ _ _ _ _ hstands hrep => h.of_standsIn hstands rfl hrep, fun h => ?_⟩
  induction ts using tokens_induction with
  | nil => simp [OneEach]
  | literal text rest ih =>
    rw [OneEach]
    exact ih fun _ _ _ _ _ hstands => h _ _ _ _ _ (hstands.later _)
  | var name capture rest ih =>
    rw [OneEach]
    exact ih fun _ _ _ _ _ hstands => h _ _ _ _ _ (hstands.later _)
  | group suffix binds raw children rest ihc ih =>
    rw [OneEach]
    refine ⟨?_, ih fun _ _ _ _ _ hstands => h _ _ _ _ _ (hstands.later _)⟩
    split
    · next hrep => exact h _ _ _ _ _ (.here List.mem_cons_self) hrep
    · exact ihc fun _ _ _ _ _ hstands => h _ _ _ _ _ (.inside List.mem_cons_self hstands)

/-- A token tree has a rule if and only if no variable stands in it twice and each repeated group in it, wherever it
stands, has one variable at most; otherwise the error names a variable that stands there twice, or the pattern of a
repeated group with more than one, in no other repeated group. The variables of the rule are those of the tree from
left to right, each once, with the pattern of the outermost repeated group around them. -/
theorem Tokenized.rule_exact (t : Tokenized) :
    ((∃ r, t.rule = .ok r) ↔ (namesOf t.tokens).Nodup ∧ ∀ around suffix binds raw children,
      (Token.group suffix binds raw children).StandsIn around t.tokens → suffix.repeats = true →
        (namesOf children).length ≤ 1) ∧
    (∀ e, t.rule = .error e → (∃ name, e = .duplicate name ∧ List.Duplicate name (namesOf t.tokens)) ∨
      ∃ raw, e = .cardinality raw ∧ Crowded raw t.tokens) ∧
    ∀ r, t.rule = .ok r → r.names = namesOf t.tokens ∧ r.names.Nodup ∧
      ∀ v, v ∈ r.vars ↔ ∃ around capture, (Token.variable v.name capture).StandsIn around t.tokens ∧
        v.repeated = outermostRepeated around := by
  refine ⟨?_, fun e h => ?_, fun r h => ?_⟩
  · rw [← oneEach_iff]
    constructor
    · rintro ⟨r, h⟩
      obtain ⟨hnodup, hone, -⟩ := rule_eq_ok_iff.mp h
      exact ⟨hnodup, hone⟩
    · rintro ⟨hnodup, hone⟩
      exact ⟨_, rule_eq_ok_iff.mpr ⟨hnodup, hone, rfl⟩⟩
  · have hrefusal : Refusal none [] t.tokens e := refusal_of_tokensRule h
    cases hrefusal with
    | duplicate htwice => exact .inl ⟨_, rfl, htwice⟩
    | cardinality _ hcrowded => exact .inr ⟨_, rfl, hcrowded⟩
  · obtain ⟨hnodup, -, rfl⟩ := rule_eq_ok_iff.mp h
    rw [Rule.names, map_name_varsOf]
    exact ⟨rfl, hnodup, fun v => mem_varsOf_iff⟩

/-- A run in a run belongs to the outer one, and a run of two variables is refused by its pattern. -/
theorem rule_of_nested_runs :
    (∃ t r, tokenize ['/'] "x[a[-\x7bv\x7d]+]*[/\x7bw\x7d]".toList = .ok t ∧ t.rule = .ok r ∧
      r.names = [['v'], ['w']] ∧ ∃ around capture, (Token.variable ['v'] capture).StandsIn around t.tokens ∧
        some "a[-\x7bv\x7d]+".toList = outermostRepeated around) ∧
    ∃ t, tokenize ['/'] "x[/\x7bv\x7d[-\x7bw\x7d]]*".toList = .ok t ∧
      Crowded "/\x7bv\x7d[-\x7bw\x7d]".toList t.tokens := by
  have hnested : (tokenize ['/'] "x[a[-\x7bv\x7d]+]*[/\x7bw\x7d]".toList >>= Tokenized.rule) =
      .ok ⟨"x((?:a(?:-[^/]+)+)*)(?:/([^/]+))?".toList,
        [⟨['v'], some "a[-\x7bv\x7d]+".toList⟩, ⟨['w'], none⟩]⟩ := by cbv
  have htwo : ((tokenize ['/'] "x[/\x7bv\x7d[-\x7bw\x7d]]*".toList).map Tokenized.rule) =
      .ok (.error (.cardinality "/\x7bv\x7d[-\x7bw\x7d]".toList)) := by cbv
  constructor
  · obtain ⟨t, ht, hrule⟩ := bind_eq_ok.mp hnested
    obtain ⟨-, -, hvars⟩ := t.rule_exact.2.2 _ hrule
    exact ⟨t, _, ht, hrule, rfl, (hvars ⟨['v'], _⟩).mp List.mem_cons_self⟩
  · obtain ⟨t, ht, hrule⟩ := map_eq_ok.mp htwo
    rcases t.rule_exact.2.1 _ hrule with ⟨name, hname, -⟩ | ⟨raw, hraw, hcrowded⟩
    · cases hname
    · cases hraw
      exact ⟨t, ht, hcrowded⟩

end Routing.Pattern
