import Routing.Pattern.Rule

/-!
# Rules without errors

`tokensRule` puts the text of a rule together while it looks for variables that are declared twice and groups with
too many of them. Where it finds none, the text and the variables are plain functions of the tokens: `regexOf` and
`varsOf` (`tokensRule_eq_ok`). Everything that is said about the text of a rule is said about `regexOf`.

A token tree is gone through by `tokens_induction`: the tokens of a run one by one, those in a group before those
after it.
-/

namespace Routing.Pattern

/-! ### Going through a token tree -/

/-- What holds of no tokens, of a token before others and of a group around others holds of all. -/
@[elab_as_elim]
theorem tokens_induction {motive : List Token → Prop} (nil : motive [])
    (literal : ∀ text rest, motive rest → motive (.literal text :: rest))
    (var : ∀ name capture rest, motive rest → motive (.variable name capture :: rest))
    (group : ∀ suffix binds raw children rest, motive children → motive rest →
      motive (.group suffix binds raw children :: rest)) : ∀ ts, motive ts
  | [] => nil
  | .literal text :: rest => literal text rest (tokens_induction nil literal var group rest)
  | .variable name capture :: rest => var name capture rest (tokens_induction nil literal var group rest)
  | .group suffix binds raw children :: rest =>
    group suffix binds raw children rest (tokens_induction nil literal var group children)
      (tokens_induction nil literal var group rest)

/-- The captures of all variables in some tokens. -/
def capturesOf : List Token → List Text
  | [] => []
  | .literal _ :: rest => capturesOf rest
  | .variable _ capture :: rest => capture :: capturesOf rest
  | .group _ _ _ children :: rest => capturesOf children ++ capturesOf rest

theorem capturesOf_append (a b : List Token) : capturesOf (a ++ b) = capturesOf a ++ capturesOf b := by
  induction a with
  | nil => simp [capturesOf]
  | cons token a ih => cases token <;> simp [capturesOf, ih]

/-! ### The text and the variables of a rule -/

/-- Whether a group is captured as a whole. -/
def isRun (inside : Bool) (suffix : Suffix) (children : List Token) : Bool :=
  suffix.repeats && !inside && !(namesOf children).isEmpty

/-- The regular expression of some tokens, inside of a repeated group or not. -/
def regexOf (inside : Bool) : List Token → Text
  | [] => []
  | .literal text :: rest => escape text ++ regexOf inside rest
  | .variable _ capture :: rest => (if inside then capture else '(' :: capture ++ [')']) ++ regexOf inside rest
  | .group suffix _ _ children :: rest =>
    let run := part (regexOf (inside || suffix.repeats) children) ++ [suffix.symbol]
    (if isRun inside suffix children then '(' :: run ++ [')'] else run) ++ regexOf inside rest

/-- The pattern of the repeated group around the tokens in a group. -/
def within (inside : Option Text) (suffix : Suffix) (raw : Text) : Option Text :=
  if suffix.repeats then inside.or (some raw) else inside

theorem isSome_within (inside : Option Text) (suffix : Suffix) (raw : Text) :
    (within inside suffix raw).isSome = (inside.isSome || suffix.repeats) := by
  cases inside <;> cases h : suffix.repeats <;> simp [within, h]

/-- The variables of some tokens. `inside` is the pattern of the repeated group around them. -/
def varsOf (inside : Option Text) : List Token → List Variable
  | [] => []
  | .literal _ :: rest => varsOf inside rest
  | .variable name _ :: rest => ⟨name, inside⟩ :: varsOf inside rest
  | .group suffix _ raw children :: rest =>
    varsOf (within inside suffix raw) children ++ varsOf inside rest

theorem map_name_varsOf (inside : Option Text) (ts : List Token) :
    (varsOf inside ts).map Variable.name = namesOf ts := by
  induction ts using tokens_induction generalizing inside with
  | nil => simp [varsOf, namesOf]
  | literal text rest ih => simpa [varsOf, namesOf, Token.names] using ih inside
  | var name capture rest ih => simpa [varsOf, namesOf, Token.names] using ih inside
  | group suffix binds raw children rest ihc ih => simp [varsOf, namesOf, Token.names, ihc, ih]

theorem isEmpty_varsOf (inside : Option Text) (ts : List Token) :
    (varsOf inside ts).isEmpty = (namesOf ts).isEmpty := by
  rw [← map_name_varsOf inside ts, List.isEmpty_map]

theorem varsOf_some (raw : Text) (ts : List Token) :
    varsOf (some raw) ts = (namesOf ts).map fun name => ⟨name, some raw⟩ := by
  induction ts using tokens_induction with
  | nil => simp [varsOf, namesOf]
  | literal text rest ih => simpa [varsOf, namesOf, Token.names] using ih
  | var name capture rest ih => simpa [varsOf, namesOf, Token.names] using ih
  | group suffix binds around children rest ihc ih => simp [varsOf, namesOf, Token.names, within, ihc, ih]

theorem declare_eq_ok {declared more vars : List Variable} (h : declare declared more = .ok vars) :
    vars = declared ++ more := by
  induction more generalizing declared with
  | nil => simpa [declare, eq_comm] using h
  | cons v rest ih =>
    rw [declare] at h
    split at h
    · simp at h
    · simpa using ih h

theorem bind_eq_ok {ε α β : Type} {x : Except ε α} {f : α → Except ε β} {b : β} :
    (x >>= f) = .ok b ↔ ∃ a, x = .ok a ∧ f a = .ok b := by
  cases x <;> simp [bind, Except.bind]

theorem bind_eq_error {ε α β : Type} {x : Except ε α} {f : α → Except ε β} {e : ε} :
    (x >>= f) = .error e ↔ x = .error e ∨ ∃ a, x = .ok a ∧ f a = .error e := by
  cases x <;> simp [bind, Except.bind]

theorem map_eq_ok {ε α β : Type} {x : Except ε α} {f : α → β} {b : β} :
    x.map f = .ok b ↔ ∃ a, x = .ok a ∧ f a = b := by
  cases x <;> simp [Except.map]

/-- The rule of a group is that of its tokens under the suffix. Only a repeated group that stands in no other one is
captured as a whole, and it refuses a second variable. -/
theorem rule_group (inside binds : Option Text) (suffix : Suffix) (raw : Text) (children : List Token) :
    (Token.group suffix binds raw children).rule inside = (do
      let inner ← tokensRule (within inside suffix raw) {} children
      if (suffix.repeats && !inside.isSome) = true ∧ 1 < inner.vars.length then .error (.cardinality raw)
      else .ok ⟨if suffix.repeats && !inside.isSome && !inner.vars.isEmpty then
          '(' :: (part inner.regex ++ [suffix.symbol]) ++ [')'] else part inner.regex ++ [suffix.symbol],
        inner.vars⟩) := by
  cases hrep : suffix.repeats with
  | false =>
    have hsymbol : suffix.symbol = '?' := by cases suffix <;> simp_all [Suffix.repeats, Suffix.symbol]
    simp [Token.rule, within, hrep, hsymbol]
  | true =>
    cases inside with
    | none =>
      simp only [Token.rule, within, hrep, if_true, Option.none_or]
      congr 1
      funext inner
      cases inner.vars.isEmpty <;> simp
    | some around => simp [Token.rule, within, hrep]

/-- What the rule of a group is made of. -/
theorem rule_group_eq_ok {inside binds : Option Text} {suffix : Suffix} {raw : Text} {children : List Token} {r : Rule}
    (h : (Token.group suffix binds raw children).rule inside = .ok r) :
    ∃ inner, tokensRule (within inside suffix raw) {} children = .ok inner ∧
      (suffix.repeats = true → inside = none → inner.vars.length ≤ 1) ∧
      r = ⟨if suffix.repeats && !inside.isSome && !inner.vars.isEmpty then
          '(' :: (part inner.regex ++ [suffix.symbol]) ++ [')'] else part inner.regex ++ [suffix.symbol],
        inner.vars⟩ := by
  rw [rule_group] at h
  obtain ⟨inner, hinner, h⟩ := bind_eq_ok.mp h
  split at h
  · cases h
  · next hone =>
    refine ⟨inner, hinner, fun hrep hinside => ?_, (Except.ok.inj h).symm⟩
    simpa [hrep, hinside] using hone

/-- The rule of a run of tokens that is not refused. -/
theorem tokensRule_eq_ok {inside : Option Text} {before r : Rule} {ts : List Token}
    (h : tokensRule inside before ts = .ok r) :
    r = ⟨before.regex ++ regexOf inside.isSome ts, before.vars ++ varsOf inside ts⟩ := by
  induction ts using tokens_induction generalizing inside before r with
  | nil =>
    rw [tokensRule, Except.ok.injEq] at h
    simp [← h, regexOf, varsOf]
  | literal text rest ih =>
    rw [tokensRule] at h
    obtain ⟨one, hone, h⟩ := bind_eq_ok.mp h
    obtain ⟨vars, hvars, hr⟩ := bind_eq_ok.mp h
    rw [Token.rule, Except.ok.injEq] at hone
    rw [ih hr, declare_eq_ok hvars, ← hone]
    simp [regexOf, varsOf]
  | var name capture rest ih =>
    rw [tokensRule] at h
    obtain ⟨one, hone, h⟩ := bind_eq_ok.mp h
    obtain ⟨vars, hvars, hr⟩ := bind_eq_ok.mp h
    rw [ih hr, declare_eq_ok hvars]
    cases inside with
    | none =>
      rw [Token.rule, Except.ok.injEq] at hone
      simp [← hone, regexOf, varsOf]
    | some raw =>
      rw [Token.rule, Except.ok.injEq] at hone
      simp [← hone, regexOf, varsOf]
  | group suffix binds raw children rest ihc ih =>
    rw [tokensRule] at h
    obtain ⟨one, hone, h⟩ := bind_eq_ok.mp h
    obtain ⟨vars, hvars, hr⟩ := bind_eq_ok.mp h
    obtain ⟨inner, hinner, -, rfl⟩ := rule_group_eq_ok hone
    rw [ih hr, declare_eq_ok hvars, ihc hinner, isSome_within]
    simp [regexOf, varsOf, isRun, isEmpty_varsOf]

theorem nodup_of_declare {declared more vars : List Variable} (h : declare declared more = .ok vars)
    (hdeclared : (declared.map Variable.name).Nodup) : (vars.map Variable.name).Nodup := by
  induction more generalizing declared with
  | nil =>
    rw [declare, Except.ok.injEq] at h
    exact h ▸ hdeclared
  | cons v rest ih =>
    rw [declare] at h
    split at h
    · cases h
    · next hnew =>
      apply ih h
      rw [List.map_append, List.nodup_append]
      refine ⟨hdeclared, by simp, ?_⟩
      rintro name hname other hother rfl
      exact hnew (by simp_all)

/-- No variable is declared twice. -/
theorem nodup_of_tokensRule {inside : Option Text} {before r : Rule} {ts : List Token}
    (h : tokensRule inside before ts = .ok r) (hbefore : (before.vars.map Variable.name).Nodup) :
    (r.vars.map Variable.name).Nodup := by
  induction ts generalizing before with
  | nil =>
    rw [tokensRule, Except.ok.injEq] at h
    exact h ▸ hbefore
  | cons token rest ih =>
    rw [tokensRule] at h
    obtain ⟨one, -, h⟩ := bind_eq_ok.mp h
    obtain ⟨vars, hvars, h⟩ := bind_eq_ok.mp h
    exact ih h (nodup_of_declare hvars hbefore)

/-- Whether every repeated group that stands in no other one has one variable at most. -/
def OneEach : List Token → Prop
  | [] => True
  | .literal _ :: rest => OneEach rest
  | .variable _ _ :: rest => OneEach rest
  | .group suffix _ _ children :: rest =>
    (if suffix.repeats then (namesOf children).length ≤ 1 else OneEach children) ∧ OneEach rest

/-- A group with too many variables is refused. -/
theorem oneEach_of_tokensRule {before r : Rule} {ts : List Token} (h : tokensRule none before ts = .ok r) :
    OneEach ts := by
  induction ts using tokens_induction generalizing before r with
  | nil => simp [OneEach]
  | literal text rest ih =>
    rw [tokensRule] at h
    obtain ⟨one, -, h⟩ := bind_eq_ok.mp h
    obtain ⟨vars, -, h⟩ := bind_eq_ok.mp h
    simpa [OneEach] using ih h
  | var name capture rest ih =>
    rw [tokensRule] at h
    obtain ⟨one, -, h⟩ := bind_eq_ok.mp h
    obtain ⟨vars, -, h⟩ := bind_eq_ok.mp h
    simpa [OneEach] using ih h
  | group suffix binds raw children rest ihc ih =>
    rw [tokensRule] at h
    obtain ⟨one, hone, h⟩ := bind_eq_ok.mp h
    obtain ⟨vars, -, h⟩ := bind_eq_ok.mp h
    obtain ⟨inner, hinner, hlength, -⟩ := rule_group_eq_ok hone
    rw [OneEach]
    refine ⟨?_, ih h⟩
    split
    · next hrep =>
      have hvars : inner.vars = varsOf (within none suffix raw) children := by
        rw [tokensRule_eq_ok hinner]
        rfl
      have hle := hlength hrep rfl
      rwa [hvars, ← List.length_map Variable.name, map_name_varsOf] at hle
    · next hrep =>
      have hnone : within none suffix raw = none := by simp [within, hrep]
      rw [hnone] at hinner
      exact ihc hinner

theorem oneEach_of_length {ts : List Token} (h : (namesOf ts).length ≤ 1) : OneEach ts := by
  induction ts using tokens_induction with
  | nil => simp [OneEach]
  | literal text rest ih =>
    rw [OneEach]
    exact ih (by simpa [namesOf, Token.names] using h)
  | var name c rest ih =>
    simp only [namesOf, Token.names, List.length_append] at h
    rw [OneEach]
    exact ih (by omega)
  | group suffix binds raw children rest ihc ih =>
    simp only [namesOf, Token.names, List.length_append] at h
    rw [OneEach]
    refine ⟨?_, ih (by omega)⟩
    split
    · omega
    · exact ihc (by omega)

end Routing.Pattern
