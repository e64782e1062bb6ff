import Routing.Proofs.Pattern.Expression
import Routing.Route

/-!
# Assigned patterns

The stages of an assignment that ends without an error have all succeeded (`assign_eq_ok`): its pattern holds the
tokens, the rule, the expressions and the splitters of its path.
-/

namespace Routing

open Pattern

theorem Traced.bind_outcome_eq_ok {α β : Type} {x : Traced α} {f : α → Traced β} {b : β} :
    (x >>= f).outcome = .ok b ↔ ∃ a, x.outcome = .ok a ∧ (f a).outcome = .ok b := by
  rw [outcome_bind, bind_eq_ok]

theorem Traced.bind_outcome_eq_error {α β : Type} {x : Traced α} {f : α → Traced β} {e : RouteError} :
    (x >>= f).outcome = .error e ↔ x.outcome = .error e ∨ ∃ a, x.outcome = .ok a ∧ (f a).outcome = .error e := by
  rw [outcome_bind, bind_eq_error]

/-- What looks at an outcome goes on, whatever the outcome is. -/
theorem Traced.outcome_caught_bind {α β : Type} (x : Traced α) (f : Except RouteError α → Traced β) :
    (x.caught >>= f).outcome = (f x.outcome).outcome := by
  rw [outcome_bind]
  rfl

/-- Taking a note does nothing to what comes out. -/
theorem Traced.outcome_note_bind {α : Type} (level : Nat) (text : Text) (f : Unit → Traced α) :
    (note level text >>= f).outcome = (f ()).outcome := by
  rw [outcome_bind]
  rfl

/-- Whether a run ends without an error and gives something of which a property holds. -/
def Traced.Gives {α : Type} (run : Traced α) (p : α → Prop) : Prop :=
  match run.outcome with
  | .error _ => False
  | .ok a => p a

theorem Traced.exists_of_gives {α : Type} {run : Traced α} {p : α → Prop} (h : run.Gives p) :
    ∃ a, run.outcome = .ok a ∧ p a := by
  rw [Gives] at h
  cases hrun : run.outcome with
  | error e =>
    rw [hrun] at h
    exact h.elim
  | ok a =>
    rw [hrun] at h
    exact ⟨a, rfl, h⟩

/-- A run that finds something, if it gives what is found. -/
theorem Traced.exists_some_of_gives {α : Type} {run : Traced (Option α)} {p : α → Prop}
    (h : run.Gives fun found => found.elim False p) : ∃ a, run.outcome = .ok (some a) ∧ p a := by
  obtain ⟨_ | a, hrun, ha⟩ := exists_of_gives h
  · exact ha.elim
  · exact ⟨a, hrun, ha⟩

theorem tokenizeTraced_eq_ok {delimiter pattern : Text} {t : Tokenized} :
    (tokenizeTraced delimiter pattern).outcome = .ok t ↔ tokenize delimiter pattern = .ok t := by
  rw [tokenizeTraced]
  cases tokenize delimiter pattern with
  | error e => simp [Traced.fail]
  | ok found => simp [noteTokens, Traced.note, bind]

theorem ruleTraced_eq_ok {delimiter pattern : Text} {r : Rule} :
    (ruleTraced delimiter pattern).outcome = .ok r ↔ ∃ t, tokenize delimiter pattern = .ok t ∧ t.rule = .ok r := by
  rw [ruleTraced, Traced.bind_outcome_eq_ok]
  apply exists_congr
  intro t
  rw [tokenizeTraced_eq_ok]
  apply and_congr_right
  intro _
  cases t.rule with
  | error e => simp [Traced.fail]
  | ok found => simp [Traced.note, bind]

theorem readRegex_eq_ok {t : Text} {r : Regex} : readRegex t = .ok r ↔ Regex.read t = .ok r := by
  rw [readRegex]
  cases Regex.read t with
  | error e => cases e <;> simp
  | ok found => simp

/-- The splitter of a repeated variable is the expression of the rule of its group. -/
theorem lookup_of_splittersOf {vars : List Variable} {splitters : List (Text × Regex)}
    (h : (splittersOf vars).outcome = .ok splitters) (hnodup : (vars.map Variable.name).Nodup) {name raw : Text}
    (hmem : ⟨name, some raw⟩ ∈ vars) :
    ∃ rule splitter, (ruleTraced ['/'] raw).outcome = .ok rule ∧ Regex.read rule.regex = .ok splitter ∧
      splitters.lookup name = some splitter := by
  induction vars generalizing splitters with
  | nil => cases hmem
  | cons v vars ih =>
    rw [List.map_cons, List.nodup_cons] at hnodup
    obtain ⟨hnew, hnodup⟩ := hnodup
    obtain ⟨first, repeated⟩ := v
    cases repeated with
    | none =>
      rcases List.mem_cons.mp hmem with hfirst | hmem
      · cases hfirst
      · exact ih h hnodup hmem
    | some around =>
      obtain ⟨rule, hrule, h⟩ := Traced.bind_outcome_eq_ok.mp h
      obtain ⟨splitter, hsplitter, h⟩ := Traced.bind_outcome_eq_ok.mp h
      obtain ⟨others, hothers, h⟩ := Traced.bind_outcome_eq_ok.mp h
      rw [Traced.outcome_pure, Except.ok.injEq] at h
      rw [← h]
      rcases List.mem_cons.mp hmem with hfirst | hrest
      · obtain ⟨rfl, hraw⟩ := Variable.mk.inj hfirst
        obtain rfl := Option.some.inj hraw
        exact ⟨rule, splitter, hrule, readRegex_eq_ok.mp hsplitter, List.lookup_cons_self⟩
      · obtain ⟨rule', splitter', hrule', hsplitter', hlookup⟩ := ih hothers hnodup hrest
        have hne : (name == first) = false := by
          rw [beq_eq_false_iff_ne]
          rintro rfl
          exact hnew (List.mem_map.mpr ⟨_, hrest, rfl⟩)
        exact ⟨rule', splitter', hrule', hsplitter', by rw [List.lookup_cons, hne, hlookup]⟩

namespace RoutePattern

/-- Whether a pattern holds what its path, its delimiter and its query variables make of it. -/
structure Assigned (p : RoutePattern) (delimiter : Text) : Prop where
  tokens : tokenize delimiter p.path = .ok p.tokens
  rule : p.tokens.rule = .ok p.rule
  entry : Regex.read p.rule.regex = .ok p.entry
  whole : Regex.read (wholeOf p.rule) = .ok p.whole
  splitters : (splittersOf p.rule.vars).outcome = .ok p.splitters

theorem Assigned.regex_eq {p : RoutePattern} {delimiter : Text} (h : p.Assigned delimiter) :
    p.rule.regex = regexOf false p.tokens.tokens := by
  rw [tokensRule_eq_ok h.rule]
  rfl

theorem Assigned.vars_eq {p : RoutePattern} {delimiter : Text} (h : p.Assigned delimiter) :
    p.rule.vars = varsOf none p.tokens.tokens := by
  rw [tokensRule_eq_ok h.rule]
  rfl

theorem Assigned.nodup_vars {p : RoutePattern} {delimiter : Text} (h : p.Assigned delimiter) :
    (p.rule.vars.map Variable.name).Nodup :=
  nodup_of_tokensRule h.rule List.nodup_nil

theorem Assigned.whole_eq {p : RoutePattern} {delimiter : Text} (h : p.Assigned delimiter) :
    p.whole = Regex.seqAll [p.entry, Regex.optionalSlash] := by
  apply Regex.whole_eq h.entry
  simpa [wholeOf, part] using h.whole

/-- A pattern with default captures is assigned without an error if the expressions of its runs are read. -/
theorem assigned_of_captures {d : Char} {path : Text} {t : Tokenized} {rule : Rule} {splitters : List (Text × Regex)}
    (ht : tokenize [d] path = .ok t) (hrule : t.rule = .ok rule) (hd : ∀ c ∈ capturesOf t.tokens, c = defaultCapture [d])
    (hsplitters : (splittersOf rule.vars).outcome = .ok splitters) (names : List Text) :
    Assigned ⟨path, names, t, rule, exprOf d false 0 t.tokens,
      Regex.seqAll [exprOf d false 0 t.tokens, Regex.optionalSlash], splitters⟩ [d] := by
  have hregex : rule.regex = regexOf false t.tokens := by
    rw [tokensRule_eq_ok hrule]
    rfl
  refine ⟨ht, hrule, ?_, ?_, hsplitters⟩
  · rw [hregex, read_regexOf hd]
  · rw [wholeOf, hregex, read_whole hd]

/-- An assignment without an error has gone through all stages. -/
theorem assign_eq_ok {old p : RoutePattern} {delimiter source : Text}
    (h : (assign old delimiter source).outcome = .ok (p, none)) :
    p.Assigned delimiter ∧ p.path = Text.dropLeading '/' (splitSuffix source).1 ∧
      p.queryNames = (splitSuffix source).2 := by
  rw [assign] at h
  obtain ⟨tokens, htokens, h⟩ := Traced.bind_outcome_eq_ok.mp h
  rw [Traced.caught, Except.ok.injEq] at htokens
  cases tokens with
  | error e => simp at h
  | ok tokens =>
    rw [tokenizeTraced_eq_ok] at htokens
    simp only at h
    cases hrule : tokens.rule with
    | error e => simp [hrule] at h
    | ok rule =>
      cases hentry : readRegex rule.regex with
      | error e => simp [hrule, hentry] at h
      | ok entry =>
        cases hwhole : readRegex (wholeOf rule) with
        | error e => simp [hrule, hentry, hwhole] at h
        | ok whole =>
          simp only [hrule, hentry, hwhole] at h
          obtain ⟨splitters, hsplitters, h⟩ := Traced.bind_outcome_eq_ok.mp h
          rw [Traced.caught, Except.ok.injEq] at hsplitters
          cases splitters with
          | error e => simp at h
          | ok splitters =>
            simp only [Traced.outcome_pure, Except.ok.injEq, Prod.mk.injEq, and_true] at h
            subst h
            exact ⟨⟨htokens, hrule, readRegex_eq_ok.mp hentry, readRegex_eq_ok.mp hwhole, hsplitters⟩, rfl, rfl⟩

/-- The pattern that a text writes is assigned. -/
theorem ofText_eq_ok {p : RoutePattern} {delimiter source : Text} (h : (ofText delimiter source).outcome = .ok p) :
    (assign {} delimiter source).outcome = .ok (p, none) := by
  rw [ofText] at h
  obtain ⟨⟨found, failure⟩, hassign, h⟩ := Traced.bind_outcome_eq_ok.mp h
  cases failure with
  | some e => simp [Traced.fail] at h
  | none =>
    simp only [Traced.outcome_pure, Except.ok.injEq] at h
    rwa [h] at hassign

/-- A pattern whose stages succeed is the one that its text writes. -/
theorem ofText_of_assigned {p : RoutePattern} {delimiter source : Text} (h : p.Assigned delimiter)
    (hpath : p.path = Text.dropLeading '/' (splitSuffix source).1) (hnames : p.queryNames = (splitSuffix source).2) :
    (ofText delimiter source).outcome = .ok p := by
  have hassign : (assign {} delimiter source).outcome = .ok (p, none) := by
    rw [assign, ← hpath, ← hnames, Traced.bind_outcome_eq_ok]
    refine ⟨.ok p.tokens, ?_, ?_⟩
    · rw [Traced.caught, tokenizeTraced_eq_ok.mpr h.tokens]
    simp only [h.rule, readRegex_eq_ok.mpr h.entry, readRegex_eq_ok.mpr h.whole]
    rw [Traced.bind_outcome_eq_ok]
    refine ⟨.ok p.splitters, ?_, rfl⟩
    rw [Traced.caught, h.splitters]
  rw [ofText, Traced.bind_outcome_eq_ok]
  exact ⟨(p, none), hassign, rfl⟩

end RoutePattern

end Routing
