import Routing.Proofs.Route.Assign

/-!
# Patterns that are assigned again

An assignment goes through its stages and keeps what each of them makes, also when a later one fails (`assign_eq`). So a
pattern that was assigned again and again is put together: every part of it is that of the last text that got through
the stage of this part (`Reached.holdsLatest`). The path and the query names are always those of the last text.

The parts fit the path exactly if the last assignment ended without an error (`assigned_iff_of_assign`). An assignment
that fails changes the path of a pattern whose parts fit (`path_ne_of_assign`).
-/

namespace Routing.RoutePattern

open Pattern

/-! ### Stages -/

/-- The path that a text writes. -/
def pathOf (source : Text) : Text := Text.dropLeading '/' (splitSuffix source).1

section Stages

variable (delimiter source : Text)

/-- The tokens of a text, if its brackets are balanced. -/
def readTokens : Option Tokenized := (tokenize delimiter (pathOf source)).toOption

/-- The rule of a text, if no variable is declared twice and no repeated group has two of them. -/
def readRule : Option Rule := (readTokens delimiter source).bind fun t => t.rule.toOption

/-- The expression of a text, if it is one. -/
def readEntry : Option Regex := (readRule delimiter source).bind fun r => (Regex.read r.regex).toOption

/-- The expression with a slash at the end, if a text got that far. -/
def readWhole : Option Regex :=
  (readEntry delimiter source).bind fun _ => (readRule delimiter source).bind fun r => (Regex.read (wholeOf r)).toOption

/-- The splitters of a text that got through all stages. -/
def readSplitters : Option (List (Text × Regex)) :=
  (readWhole delimiter source).bind fun _ =>
    (readRule delimiter source).bind fun r => (splittersOf r.vars).outcome.toOption

end Stages

/-- What an assignment makes of an old pattern: the parts whose stage it does not get through are left. -/
def after (old : RoutePattern) (delimiter source : Text) : RoutePattern where
  path := pathOf source
  queryNames := (splitSuffix source).2
  tokens := (readTokens delimiter source).getD old.tokens
  rule := (readRule delimiter source).getD old.rule
  entry := (readEntry delimiter source).getD old.entry
  whole := (readWhole delimiter source).getD old.whole
  splitters := (readSplitters delimiter source).getD old.splitters

theorem toOption_readRegex (t : Text) : (Regex.read t).toOption = (readRegex t).toOption := by
  rw [readRegex]
  cases Regex.read t with
  | error e => cases e <;> rfl
  | ok r => rfl

theorem toOption_tokenizeTraced (delimiter pattern : Text) :
    (tokenize delimiter pattern).toOption = (tokenizeTraced delimiter pattern).outcome.toOption := by
  rw [tokenizeTraced]
  cases tokenize delimiter pattern <;> rfl

/-- An assignment always ends, and it raises nothing exactly if the last stage succeeds. -/
theorem assign_eq (old : RoutePattern) (delimiter source : Text) :
    ∃ failure, (assign old delimiter source).outcome = .ok (after old delimiter source, failure) ∧
      (failure = none ↔ (readSplitters delimiter source).isSome = true) := by
  simp only [assign, Traced.outcome_caught_bind, after, readSplitters, readWhole, readEntry, readRule, readTokens,
    toOption_readRegex, toOption_tokenizeTraced, pathOf]
  -- what comes after a stage is known once its result is
  cases (tokenizeTraced delimiter (Text.dropLeading '/' (splitSuffix source).1)).outcome with
  | error e => exact ⟨some e, rfl, by simp [Except.toOption]⟩
  | ok tokens =>
    simp only [Except.toOption, Option.bind_some]
    cases tokens.rule with
    | error e => exact ⟨some (.badPattern e), rfl, by simp⟩
    | ok rule =>
      simp only [Option.bind_some]
      cases readRegex rule.regex with
      | error e => exact ⟨some e, rfl, by simp⟩
      | ok entry =>
        simp only [Option.bind_some]
        cases readRegex (wholeOf rule) with
        | error e => exact ⟨some e, rfl, by simp⟩
        | ok whole =>
          simp only [Option.bind_some, Traced.outcome_caught_bind]
          cases (splittersOf rule.vars).outcome with
          | error e => exact ⟨some e, rfl, by simp⟩
          | ok splitters => exact ⟨none, rfl, by simp⟩

theorem eq_after_of_assign {old q : RoutePattern} {delimiter source : Text} {failure : Option RouteError}
    (h : (assign old delimiter source).outcome = .ok (q, failure)) :
    q = after old delimiter source ∧ (failure = none ↔ (readSplitters delimiter source).isSome = true) := by
  obtain ⟨found, hassign, hfailure⟩ := assign_eq old delimiter source
  rw [h, Except.ok.injEq, Prod.mk.injEq] at hassign
  obtain ⟨hq, rfl⟩ := hassign
  exact ⟨hq, hfailure⟩

/-! ### Parts that fit -/

/-- Parts that fit the path are what the stages make of it. -/
theorem stages_of_assigned {p : RoutePattern} {delimiter source : Text} (h : p.Assigned delimiter)
    (hpath : p.path = pathOf source) :
    readTokens delimiter source = some p.tokens ∧ readRule delimiter source = some p.rule ∧
      readEntry delimiter source = some p.entry ∧ readWhole delimiter source = some p.whole ∧
      readSplitters delimiter source = some p.splitters := by
  have htokens : readTokens delimiter source = some p.tokens := by
    rw [readTokens, ← hpath, h.tokens]
    rfl
  have hrule : readRule delimiter source = some p.rule := by
    rw [readRule, htokens, Option.bind_some, h.rule]
    rfl
  have hentry : readEntry delimiter source = some p.entry := by
    rw [readEntry, hrule, Option.bind_some, h.entry]
    rfl
  have hwhole : readWhole delimiter source = some p.whole := by
    rw [readWhole, hentry, hrule, Option.bind_some, Option.bind_some, h.whole]
    rfl
  have hsplitters : readSplitters delimiter source = some p.splitters := by
    rw [readSplitters, hwhole, hrule, Option.bind_some, Option.bind_some, h.splitters]
    rfl
  exact ⟨htokens, hrule, hentry, hwhole, hsplitters⟩

/-- The parts fit the path after an assignment that raises nothing, and after no other one. -/
theorem assigned_iff_of_assign {old q : RoutePattern} {delimiter source : Text} {failure : Option RouteError}
    (h : (assign old delimiter source).outcome = .ok (q, failure)) : q.Assigned delimiter ↔ failure = none := by
  obtain ⟨hq, hfailure⟩ := eq_after_of_assign h
  constructor
  · intro hassigned
    obtain ⟨-, -, -, -, hsplitters⟩ := stages_of_assigned hassigned (show q.path = pathOf source by rw [hq, after])
    rw [hfailure, hsplitters]
    rfl
  · rintro rfl
    exact (assign_eq_ok h).1

/-- An assignment that fails changes the path of a pattern whose parts fit. -/
theorem path_ne_of_assign {old q : RoutePattern} {delimiter source : Text} {e : RouteError}
    (h : (assign old delimiter source).outcome = .ok (q, some e)) (hold : old.Assigned delimiter) :
    q.path ≠ old.path := by
  intro hpath
  obtain ⟨hq, hfailure⟩ := eq_after_of_assign h
  have hsource : old.path = pathOf source := by rw [← hpath, hq, after]
  obtain ⟨-, -, -, -, hsplitters⟩ := stages_of_assigned hold hsource
  rw [hsplitters] at hfailure
  exact absurd (hfailure.mpr rfl) nofun

/-! ### Many assignments -/

/-- The patterns that a route has when some texts are assigned to it one after the other. The first one is that of a new
route, so it raised nothing; a later one may have failed. -/
inductive Reached (delimiter : Text) : List Text → RoutePattern → Prop
  | made {source p} (h : (ofText delimiter source).outcome = .ok p) : Reached delimiter [source] p
  | assigned {sources source p q failure} (hp : Reached delimiter sources p)
    (h : (assign p delimiter source).outcome = .ok (q, failure)) : Reached delimiter (sources ++ [source]) q

/-- Whether a part is the one that the last of some texts with such a part makes. -/
def Latest {α : Type} (stage : Text → Option α) (sources : List Text) (part : α) : Prop :=
  (sources.filterMap stage).getLast? = some part

/-- Whether every part of a pattern is that of the last text that got through the stage of this part. -/
structure HoldsLatest (p : RoutePattern) (delimiter : Text) (sources : List Text) : Prop where
  path : Latest (fun source => some (pathOf source)) sources p.path
  queryNames : Latest (fun source => some (splitSuffix source).2) sources p.queryNames
  tokens : Latest (readTokens delimiter) sources p.tokens
  rule : Latest (readRule delimiter) sources p.rule
  entry : Latest (readEntry delimiter) sources p.entry
  whole : Latest (readWhole delimiter) sources p.whole
  splitters : Latest (readSplitters delimiter) sources p.splitters

theorem latest_concat {α : Type} {stage : Text → Option α} {sources : List Text} {part : α}
    (h : Latest stage sources part) (source : Text) :
    Latest stage (sources ++ [source]) ((stage source).getD part) := by
  rw [Latest, List.filterMap_append, List.getLast?_append, h]
  cases hstage : stage source with
  | none => simp [hstage]
  | some made => simp [hstage]

theorem latest_singleton {α : Type} {stage : Text → Option α} {source : Text} {part : α}
    (h : stage source = some part) : Latest stage [source] part := by
  simp [Latest, h]

/-- One more assignment. -/
theorem HoldsLatest.assign {p q : RoutePattern} {delimiter source : Text} {sources : List Text}
    {failure : Option RouteError} (h : p.HoldsLatest delimiter sources)
    (hq : (RoutePattern.assign p delimiter source).outcome = .ok (q, failure)) :
    q.HoldsLatest delimiter (sources ++ [source]) := by
  rw [(eq_after_of_assign hq).1]
  exact {
    path := latest_concat h.path source
    queryNames := latest_concat h.queryNames source
    tokens := latest_concat h.tokens source
    rule := latest_concat h.rule source
    entry := latest_concat h.entry source
    whole := latest_concat h.whole source
    splitters := latest_concat h.splitters source }

theorem Reached.holdsLatest {p : RoutePattern} {delimiter : Text} {sources : List Text}
    (h : Reached delimiter sources p) : p.HoldsLatest delimiter sources := by
  induction h with
  | made h =>
    obtain ⟨hassigned, hpath, hnames⟩ := assign_eq_ok (ofText_eq_ok h)
    obtain ⟨htokens, hrule, hentry, hwhole, hsplitters⟩ := stages_of_assigned hassigned hpath
    exact {
      path := latest_singleton (congrArg some hpath.symm)
      queryNames := latest_singleton (congrArg some hnames.symm)
      tokens := latest_singleton htokens
      rule := latest_singleton hrule
      entry := latest_singleton hentry
      whole := latest_singleton hwhole
      splitters := latest_singleton hsplitters }
  | assigned _ h ih => exact ih.assign h

/-- An assignment that fails leaves a pattern put together: the path, the query names and the parts whose stages were
got through are new, the splitters and the other parts are those from before. If the pattern itself is refused, paths
are matched as before. But the parts do not fit the path, and where those from before did, the path is another one. -/
theorem Reached.assign_fails {p q : RoutePattern} {delimiter source : Text} {sources : List Text} {e : RouteError}
    (hp : Reached delimiter sources p) (h : (assign p delimiter source).outcome = .ok (q, some e)) :
    q = p.after delimiter source ∧ q.splitters = p.splitters ∧
      (readRule delimiter source = none → q.rule = p.rule ∧ q.entry = p.entry ∧ q.whole = p.whole) ∧
      q.HoldsLatest delimiter (sources ++ [source]) ∧
      ¬q.Assigned delimiter ∧ (p.Assigned delimiter → q.path ≠ p.path) := by
  obtain ⟨hq, hfailure⟩ := eq_after_of_assign h
  have hsplitters : readSplitters delimiter source = none := by
    rw [← Option.not_isSome_iff_eq_none, ← hfailure]
    exact nofun
  have hassigned : ¬q.Assigned delimiter := by
    rw [assigned_iff_of_assign h]
    exact nofun
  refine ⟨hq, ?_, fun hrule => ?_, hp.holdsLatest.assign h, hassigned, path_ne_of_assign h⟩
  · rw [hq, after, hsplitters, Option.getD_none]
  · rw [hq]
    simp [after, readWhole, readEntry, hrule]

/-- After `post`, the capture `(` is no expression: the rule of the new pattern is there already, but paths are matched
with the old expression, which has no capture for its variable. -/
theorem broken_capture_leaves_old_expression :
    ∃ p q e, Reached ['/'] ["post".toList] p ∧ (assign p ['/'] "\x7ba:(\x7d".toList).outcome = .ok (q, some e) ∧
      q.rule.names = [['a']] ∧ q.whole = p.whole ∧ q.HoldsLatest ['/'] ["post".toList, "\x7ba:(\x7d".toList] ∧
      ¬q.Assigned ['/'] := by
  have hrun : (ofText ['/'] "post".toList).Gives fun p =>
      (assign p ['/'] "\x7ba:(\x7d".toList).Gives fun r => r.2 = some .badRegex ∧ r.1.rule.names = [['a']] := by
    cbv
  have hwhole : readWhole ['/'] "\x7ba:(\x7d".toList = none := by cbv
  obtain ⟨p, hp, hassign⟩ := Traced.exists_of_gives hrun
  obtain ⟨⟨q, failure⟩, hq, rfl, hnames⟩ := Traced.exists_of_gives hassign
  obtain ⟨hafter, -, -, hlatest, hassigned, -⟩ := (Reached.made hp).assign_fails hq
  refine ⟨p, q, _, .made hp, hq, hnames, ?_, hlatest, hassigned⟩
  rw [hafter, after, hwhole, Option.getD_none]

/-- After `post`, the pattern `x[` is refused, but it is the pattern of the route from then on. -/
theorem refused_pattern_stays :
    ∃ p q e, Reached ['/'] ["post".toList] p ∧ (assign p ['/'] "x[".toList).outcome = .ok (q, some e) ∧
      p.path = "post".toList ∧ q.path = "x[".toList ∧ q.rule = p.rule ∧ p.rule.regex = "post".toList := by
  have hrun : (ofText ['/'] "post".toList).Gives fun p => p.path = "post".toList ∧ p.rule.regex = "post".toList ∧
      (assign p ['/'] "x[".toList).Gives fun r => r.1.path = "x[".toList ∧ r.1.rule = p.rule ∧
        r.2 = some (.badPattern (.unbalanced "x[".toList)) := by
    cbv
  obtain ⟨p, hp, hpath, hregex, hassign⟩ := Traced.exists_of_gives hrun
  obtain ⟨⟨q, failure⟩, hq, hnew, hrule, rfl⟩ := Traced.exists_of_gives hassign
  exact ⟨p, q, _, .made hp, hq, hpath, hnew, hrule, hregex⟩

end Routing.RoutePattern
