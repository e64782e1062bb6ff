import Routing.Proofs.Pattern.Steps
import Routing.Proofs.Route.RoundTrip

/-!
# Routes without groups

A route whose pattern is a row of steps writes a path for the texts that its variables are given (`path_of_steps`), and
reads them back from a match of the path (`values_of_fits`). The coded form of a text has no slash, but with a delimiter
other than a slash there may be characters that the default capture does not take.
-/

namespace Routing

open Pattern

/-- Whether the pattern of a route is a row of steps, with a slash between any two variables. -/
structure Route.HasSteps (r : Route) (steps : List Step) : Prop where
  delimiter : r.delimiter ≠ []
  tokens : r.pattern.tokens.tokens = tokensOf r.delimiter steps
  spaced : Spaced true (tokensOf ['/'] steps)

/-- Whether some parameters have a text for each variable of a path, not an empty one, and the coded form of it has no
character of the delimiter. -/
structure Route.TakesTexts (r : Route) (params : Mapping Value) (names : List Text) : Prop where
  nodup : params.keys.Nodup
  texts : GivesTexts params names
  coded : ∀ name ∈ names, ∀ c ∈ codedParam params name, c ∉ r.delimiter

theorem Route.TakesTexts.mem_without {r : Route} {params : Mapping Value} {names : List Text}
    (h : r.TakesTexts params names) : ∀ v ∈ names.map (codedParam params), v ∈ without '/' := by
  rw [List.forall_mem_map]
  intro name hname
  obtain ⟨t, hne, ht⟩ := h.texts name hname
  rw [codedParam_str ht]
  exact coded_mem_without hne

/-- With a slash for the delimiter there is no text that is not taken. -/
theorem Route.takesTexts_of_slash {r : Route} (h : r.delimiter = ['/']) {params : Mapping Value} {names : List Text}
    (hnodup : params.keys.Nodup) (htexts : GivesTexts params names) : r.TakesTexts params names := by
  refine ⟨hnodup, htexts, fun name hname c hc hslash => ?_⟩
  obtain ⟨t, hne, ht⟩ := htexts name hname
  rw [h, List.mem_singleton] at hslash
  rw [codedParam_str ht, hslash] at hc
  exact (coded_mem_without hne).2 hc

theorem not_mem_coded {c : Char} (hchar : isPathChar c = false) (hpercent : c ≠ '%') (hdigit : Text.hexValue? c = none)
    (t : Text) : c ∉ coded t := Text.not_mem_percentEncode hchar hpercent hdigit t

namespace PathFor

/-- A path without groups is written, and the steps fit it with the coded parameters. -/
theorem write_tokensOf (w : PathFor) {delimiter : Text} (hdelimiter : delimiter ≠ []) {params : Mapping Value}
    {steps : List Step} (htexts : GivesTexts params (variablesOf steps))
    (hcoded : ∀ name ∈ variablesOf steps, ∀ c ∈ codedParam params name, c ∉ delimiter) (before : Text) :
    ∃ t, Fits steps ((variablesOf steps).map (codedParam params)) t ∧
      w.write false params before (tokensOf delimiter steps) = .ok (before ++ t) := by
  fun_induction variablesOf steps generalizing before with
  | case1 =>
    refine ⟨[], .nil, ?_⟩
    rw [tokensOf, write, List.append_nil]
  | case2 text rest ih =>
    obtain ⟨t, hfits, hwrite⟩ := ih htexts hcoded (before ++ text)
    refine ⟨text ++ t, .literal hfits, ?_⟩
    rw [tokensOf, write, hwrite, List.append_assoc]
  | case3 name rest ih =>
    rw [GivesTexts, List.forall_mem_cons] at htexts
    rw [List.forall_mem_cons] at hcoded
    obtain ⟨⟨value, hne, hget⟩, htexts⟩ := htexts
    have htaken : coded value ∈ takenBy (defaultCapture delimiter) := by
      rw [takenBy_defaultCapture hdelimiter]
      exact ⟨(coded_mem_without hne).1, codedParam_str hget ▸ hcoded.1⟩
    obtain ⟨t, hfits, hwrite⟩ := ih htexts hcoded.2 (before ++ coded value)
    rw [List.map_cons, codedParam_str hget]
    refine ⟨coded value ++ t, .var hfits, ?_⟩
    rw [tokensOf, write, hget]
    simp only [writeValue_of_mem_takenBy htaken, bind, Except.bind]
    rw [hwrite, List.append_assoc]

end PathFor

/-- A pattern of steps is assigned without an error. -/
theorem RoutePattern.assigned_of_steps {delimiter path : Text} (hdelimiter : delimiter ≠ []) {t : Tokenized}
    {rule : Rule} (ht : tokenize delimiter path = .ok t) (hrule : t.rule = .ok rule) {steps : List Step}
    (htokens : t.tokens = tokensOf delimiter steps) (names : List Text) :
    Assigned ⟨path, names, t, rule, stepExpr delimiter 0 steps,
      Regex.seqAll [stepExpr delimiter 0 steps, Regex.optionalSlash], []⟩ delimiter := by
  have hrule' := tokensRule_eq_ok hrule
  have hregex : rule.regex = regexOf false (tokensOf delimiter steps) := by rw [hrule', htokens]; rfl
  have hvars : rule.vars = (variablesOf steps).map fun name => ⟨name, none⟩ := by
    rw [hrule', ← varsOf_tokensOf delimiter, ← htokens]
    rfl
  have hreads := (reads_tokensOf hdelimiter steps 0).apart
  refine ⟨ht, hrule, ?_, ?_, ?_⟩
  · rw [hregex, hreads.read]
    rfl
  · rw [wholeOf, hregex, hreads.read_whole]
    rfl
  · have hsplitters := @Route.outcome_splittersOf (variablesOf steps) none fun _ h => absurd h (Option.not_mem_none _)
    simp only [Option.toList_none, List.map_nil, List.append_nil] at hsplitters
    rw [hvars, hsplitters]

namespace Route

variable {r : Route} {steps : List Step} {params : Mapping Value}

theorem HasSteps.entry_eq (hr : r.IsMade) (h : r.HasSteps steps) : r.pattern.entry = stepExpr r.delimiter 0 steps := by
  have hentry := hr.assigned.entry
  rw [hr.assigned.regex_eq, h.tokens, (reads_tokensOf h.delimiter steps 0).apart.read, Except.ok.injEq] at hentry
  exact hentry.symm

theorem HasSteps.whole_eq (hr : r.IsMade) (h : r.HasSteps steps) :
    r.pattern.whole = Regex.seqAll [stepExpr r.delimiter 0 steps, Regex.optionalSlash] := by
  rw [hr.assigned.whole_eq, h.entry_eq hr]

theorem HasSteps.nodup_variables (hr : r.IsMade) (h : r.HasSteps steps) : (variablesOf steps).Nodup := by
  have hvars := hr.assigned.nodup_vars
  rwa [hr.assigned.vars_eq, map_name_varsOf, h.tokens, namesOf_tokensOf] at hvars

/-- The values of a match that captured the coded parameters are the parameters. -/
theorem values_of_captured (hr : r.IsMade) (h : r.HasSteps steps) (htexts : GivesTexts params (variablesOf steps))
    {found : Regex.Cursor}
    (hfound : ∀ i v, ((variablesOf steps).map (codedParam params))[i]? = some v → found.captured (i + 1) = some v) :
    r.values found = .ok ⟨(variablesOf steps).map fun name => (name, paramValue params name)⟩ := by
  have hvars : r.pattern.rule.vars = (variablesOf steps).map fun name => ⟨name, none⟩ := by
    rw [hr.assigned.vars_eq, h.tokens, varsOf_tokensOf]
  have hcount : r.pattern.whole.captureCount = (variablesOf steps).length := by
    rw [h.whole_eq hr, ← captureCount_stepExpr r.delimiter 0 steps]
    rfl
  have hvalues := @valuesFrom_eq r.pattern found params 1 r.pattern.rule.vars
    (by rw [hcount, hvars, List.length_map]; omega)
    (by
      intro i v hi
      rw [Nat.add_comm]
      apply hfound i v
      simpa [hvars] using hi)
    (by
      rw [hvars, List.forall_mem_map]
      intro name hname
      obtain ⟨t, ht, hget⟩ := htexts name hname
      exact variableValue_text ht hget)
  have hnodup : ((variablesOf steps).map fun name => (name, paramValue params name)).map Prod.fst |>.Nodup := by
    rw [List.map_map]
    exact (List.map_id' _).symm ▸ h.nodup_variables hr
  rw [values, hvalues, hvars, List.map_map]
  exact congrArg Except.ok (Mapping.ofList_eq hnodup)

/-- The path of a route without groups fits its steps with the coded parameters. -/
theorem path_of_steps (hr : r.IsMade) (h : r.HasSteps steps) (hparams : r.TakesTexts params (variablesOf steps)) :
    ∃ core, Fits steps ((variablesOf steps).map (codedParam params)) core ∧ core.head? ≠ some '/' ∧
      r.path params = .ok (if core.isEmpty then [] else '/' :: core) := by
  have hget : ∀ name, (r.defaults.putAll params).get? name = (params.get? name).or (r.defaults.get? name) :=
    Mapping.get?_putAll _ hparams.nodup
  have hgiven : ∀ name ∈ variablesOf steps, (r.defaults.putAll params).get? name = params.get? name := by
    intro name hname
    obtain ⟨t, -, ht⟩ := hparams.texts name hname
    rw [hget, ht, Option.some_or]
  have hcodes : ∀ name ∈ variablesOf steps, codedParam (r.defaults.putAll params) name = codedParam params name :=
    fun name hname => by rw [codedParam, codedParam, hgiven name hname]
  have htexts : GivesTexts (r.defaults.putAll params) (variablesOf steps) :=
    fun name hname => hgiven name hname ▸ hparams.texts name hname
  obtain ⟨core, hfits, hwrite⟩ := PathFor.write_tokensOf ⟨r.name, r.pattern.path⟩ h.delimiter htexts
    (fun name hname => hcodes name hname ▸ hparams.coded name hname) []
  rw [List.map_congr_left hcodes] at hfits
  have hhead : core.head? ≠ some '/' := hfits.head_ne_slash hr.assigned.tokens h.tokens hr.head_ne_slash
    hparams.mem_without
  refine ⟨core, hfits, hhead, ?_⟩
  rw [Route.path, Route.text, h.tokens, hwrite]
  simp only [Except.map, List.nil_append, dropLeading_of_head_ne hhead]

/-- A path that fits the steps with the coded parameters is matched, and the match has them as its values. -/
theorem values_of_fits (hr : r.IsMade) (h : r.HasSteps steps) (hparams : r.TakesTexts params (variablesOf steps))
    {core : Text} (hfits : Fits steps ((variablesOf steps).map (codedParam params)) core) :
    ∃ found, r.pattern.whole.matchWhole core = some found ∧
      r.values found = .ok ⟨(variablesOf steps).map fun name => (name, paramValue params name)⟩ := by
  have hdelimiter : ∀ v ∈ (variablesOf steps).map (codedParam params), v ∈ withoutAny r.delimiter := by
    intro v hv
    refine ⟨(hparams.mem_without v hv).1, ?_⟩
    obtain ⟨name, hname, rfl⟩ := List.mem_map.mp hv
    exact hparams.coded name hname
  obtain ⟨found, hfound, hcaptured⟩ := captured_of_fits h.spaced hfits hparams.mem_without hdelimiter
  exact ⟨found, h.whole_eq hr ▸ hfound, values_of_captured hr h hparams.texts hcaptured⟩

end Route

end Routing
