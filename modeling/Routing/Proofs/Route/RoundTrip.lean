import Routing.Proofs.Mapping
import Routing.Proofs.Pattern.Rounds
import Routing.Proofs.Pattern.Source
import Routing.Proofs.Route.Writing
import Routing.Proofs.Tree.Pruning

/-!
# Paths are read back

A route whose variables are kept apart by slashes reads the paths that it writes: matching a path gives the parameters
that it was written for (`matchPath_path`). Their texts may hold any characters, since they are coded in the path.
-/

namespace Routing

open Pattern

/-! ### The pattern of such a route -/

section Shape

variable {free : Bool} {steps : List Token} {last : Option Text}

theorem capturesOf_withRun (hsteps : Spaced free steps) :
    ∀ c ∈ capturesOf (withRun steps last), c = defaultCapture ['/'] := by
  induction hsteps with
  | nil => cases last <;> simp [withRun, runToken, capturesOf]
  | literal hrest ih =>
    rw [withRun_cons, capturesOf]
    exact ih
  | var hrest ih =>
    rw [withRun_cons, capturesOf, List.forall_mem_cons]
    exact ⟨rfl, ih⟩

/-- The variables of such a route, the last one in a repeated group. -/
theorem varsOf_withRun (hsteps : Spaced free steps) :
    varsOf none (withRun steps last) = (namesOf steps).map (fun name => ⟨name, none⟩) ++
      last.toList.map fun name => ⟨name, some ('/' :: '\x7b' :: name ++ ['\x7d'])⟩ := by
  induction hsteps with
  | nil => cases last <;> simp [withRun, runToken, varsOf, namesOf, within, Suffix.repeats]
  | literal hrest ih =>
    rw [withRun_cons, varsOf, namesOf, Token.names, List.nil_append]
    exact ih
  | var hrest ih =>
    rw [withRun_cons, varsOf, namesOf, Token.names, ih]
    rfl

/-- The expression of such a route has a capture for each variable. -/
theorem captureCount_withRun (hsteps : Spaced free steps) (index : Nat) :
    (exprOf '/' false index (withRun steps last)).captureCount = (namesOf (withRun steps last)).length := by
  induction hsteps generalizing index with
  | nil =>
    cases last with
    | none => simp [withRun, exprOf, itemsOf, Regex.seqAll, Regex.captureCount, namesOf]
    | some name =>
      rw [withRun, List.nil_append, Option.toList_some, List.map_singleton, exprOf_runToken]
      simp [Regex.seqAll, Regex.captureCount, captureCount_runBody, runToken, namesOf, Token.names]
  | @literal free text rest hrest ih =>
    rw [withRun_cons, exprOf, itemsOf, List.map_append, List.map_map, captureCount_seqAll_append, namesOf, Token.names,
      List.nil_append, ← ih index]
    have hliteral := captureCount_literal text
    simp only [Function.comp_def, hliteral, Nat.zero_add]
    rfl
  | var hrest ih =>
    have hcount := ih (index + 1)
    rw [exprOf] at hcount
    rw [withRun_cons, exprOf, itemsOf, namesOf, Token.names, List.length_append, ← hcount]
    simp [Regex.seqAll, Regex.captureCount, runOf]

/-- A spelled text has no slash at its start if the pattern has none. -/
theorem Pattern.Spells.head_ne_slash {pattern delimiter : Text} {t : Tokenized}
    (ht : tokenize delimiter pattern = .ok t) (htokens : t.tokens = withRun steps last)
    (hhead : pattern.head? ≠ some '/') (hsteps : Spaced free steps) (hlast : last.isSome → steps ≠ [])
    {vs : List Text} {text : Text} (h : Spells (withRun steps last) vs text) : text.head? ≠ some '/' := by
  cases hsteps with
  | nil =>
    cases last with
    | none =>
      cases h
      nofun
    | some name => exact absurd rfl (hlast rfl)
  | literal hrest =>
    obtain ⟨c, hc, hpattern⟩ := head?_of_tokenize ht htokens
    cases h with
    | literal h =>
      rw [List.head?_append, hc]
      rw [hpattern] at hhead
      exact hhead
  | var hrest =>
    cases h with
    | var hv h =>
      obtain ⟨c, v, rfl⟩ := List.exists_cons_of_ne_nil hv.1
      intro hslash
      exact hv.2 (by simpa using Or.inl (Option.some.inj hslash).symm)

end Shape

/-! ### The values of a match -/

namespace Route

/-- The splitters of such a route. -/
theorem outcome_splittersOf (names : List Text) {last : Option Text} (hlast : ∀ name ∈ last, IsName name) :
    (splittersOf (names.map (fun name => ⟨name, none⟩) ++
      last.toList.map fun name => ⟨name, some ('/' :: '\x7b' :: name ++ ['\x7d'])⟩)).outcome =
      .ok (last.toList.map fun name => (name, roundExpr name)) := by
  induction names with
  | nil =>
    cases last with
    | none => rfl
    | some name =>
      have hrule : (ruleTraced ['/'] ('/' :: '\x7b' :: name ++ ['\x7d'])).outcome =
          .ok ⟨regexOf false [.literal ['/'], .variable name (defaultCapture ['/'])], [⟨name, none⟩]⟩ := by
        refine ruleTraced_eq_ok.mpr ⟨_, tokenize_item (by decide) (hlast name rfl) ['/'], ?_⟩
        simp [Tokenized.rule, tokensRule, Token.rule, declare, regexOf, bind, Except.bind]
      have hread : readRegex (regexOf false [.literal ['/'], .variable name (defaultCapture ['/'])]) =
          .ok (roundExpr name) :=
        readRegex_eq_ok.mpr (read_regexOf (by simp [capturesOf]))
      refine Traced.bind_outcome_eq_ok.mpr ⟨_, hrule, Traced.bind_outcome_eq_ok.mpr ⟨_, hread, ?_⟩⟩
      exact Traced.bind_outcome_eq_ok.mpr ⟨[], rfl, rfl⟩
  | cons name names ih => exact ih

theorem roundValue_of_not_mem {t : Text} (h : '/' ∉ t) : roundValue t = .str (Text.percentDecode t) := by
  have hnone : t.contains '/' = false := by simpa using h
  rw [roundValue, hnone]
  rfl

/-- A run gives a value for each of its items: what the capture takes of the item at first. -/
theorem splitRun_runText {e : Regex} (he : e.IsRegular) (hcount : e.captureCount = 0)
    (hslash : ∀ w ∈ e.language, '/' ∉ w) {items : List Text} (hitems : ∀ x ∈ items, x ∈ e.language) :
    splitRun (roundOf e) (runText items) =
      .ok (items.map fun x => .str (Text.percentDecode (firstTaken e x))) := by
  have hregular : (roundOf e).IsRegular := And.intro trivial (And.intro he trivial)
  have hsound := Regex.crosses_search (Regex.hasPossessive_of_isRegular hregular) (runText items)
  have hround : ∀ u : Regex.Cursor, roundText (roundOf e) u = u.captured 1 := by
    intro u
    have hone : (roundOf e).captureCount = 1 := by
      simp [roundOf, Regex.seqAll, Regex.captureCount, hcount]
    rw [roundText, hone, List.range_one, List.findSome?_singleton]
  have hvalue : ∀ x ∈ items, roundValue (firstTaken e x) = .str (Text.percentDecode (firstTaken e x)) := by
    intro x hx
    obtain ⟨-, -, -, hword⟩ := exists_firstTaken he (hitems x hx)
    exact roundValue_of_not_mem (hslash _ hword)
  have hvalues : ((roundOf e).search (runText items)).filterMap
      (fun round => (roundText (roundOf e) round).map roundValue) =
      items.map fun x => .str (Text.percentDecode (firstTaken e x)) := by
    have hpicked := congrArg (List.filterMap (Option.map roundValue)) (search_runText he hslash hitems)
    simp only [List.filterMap_map, Function.comp_def, Option.map_some, List.filterMap_eq_map'] at hpicked
    simp only [hround]
    rw [hpicked]
    exact List.map_congr_left hvalue
  rw [splitRun]
  simp only [hsound, Bool.false_eq_true, if_false, hvalues]
  rfl

/-- With the default capture a run gives its items. -/
theorem splitRun_coded {name : Text} {items : List Text} (h : [] ∉ items) :
    splitRun (roundExpr name) (runText (items.map coded)) = .ok (items.map .str) := by
  have hcoded := coded_items_mem_without h
  have hregular : (Regex.seqAll [runOf '/']).IsRegular := ⟨trivial, trivial⟩
  have hslash : ∀ w ∈ (Regex.seqAll [runOf '/']).language, '/' ∉ w := by
    rw [language_defaultCapture]
    exact fun w hw => hw.2
  have hvalue : ∀ t ∈ items,
      Value.str (Text.percentDecode (firstTaken (Regex.seqAll [runOf '/']) (coded t))) = .str t := by
    intro t ht
    rw [firstTaken_runOf (hcoded _ (List.mem_map_of_mem ht)), percentDecode_coded]
  rw [roundExpr_eq, splitRun_runText hregular rfl hslash (language_defaultCapture ▸ hcoded), List.map_map]
  exact congrArg _ (List.map_congr_left hvalue)

/-- The value of a parameter, null for one that is not given. -/
def paramValue (params : Mapping Value) (name : Text) : Value := (params.get? name).getD .null

/-- A variable by itself is read back. -/
theorem variableValue_text {p : RoutePattern} {params : Mapping Value} {name t : Text} (h : t ≠ [])
    (hget : params.get? name = some (.str t)) :
    variableValue p ⟨name, none⟩ (some (codedParam params name)) = .ok (paramValue params name) := by
  have hne : (coded t).isEmpty = false := by simpa using (coded_mem_without h).1
  rw [codedParam_str hget, paramValue, hget, variableValue]
  simp only [Option.getD_some, hne, Bool.false_eq_true, if_false, percentDecode_coded]

/-- A variable in a repeated group has the values that its run is split into. -/
theorem variableValue_of_splitRun {p : RoutePattern} {name raw : Text} {splitter : Regex} {items : List Text}
    {values : List Value} (hsplitter : p.splitters.lookup name = some splitter)
    (hrun : splitRun splitter (runText items) = .ok values) (hnil : items = [] → values = []) :
    variableValue p ⟨name, some raw⟩ (some (runText items)) = .ok (.list values) := by
  rw [variableValue]
  simp only [Option.getD_some, hsplitter, hrun]
  cases items with
  | nil =>
    rw [hnil rfl]
    rfl
  | cons t items => rfl

/-- A variable in a repeated group is read back. -/
theorem variableValue_items {p : RoutePattern} {params : Mapping Value} {name raw : Text} {items : List Text}
    (h : [] ∉ items) (hget : params.get? name = some (.list (items.map .str)))
    (hsplitter : p.splitters.lookup name = some (roundExpr name)) :
    variableValue p ⟨name, some raw⟩ (some (codedParam params name)) = .ok (paramValue params name) := by
  rw [codedParam_list hget, paramValue, hget]
  apply variableValue_of_splitRun hsplitter (splitRun_coded h)
  intro hnil
  rw [List.map_eq_nil_iff] at hnil
  rw [hnil, List.map_nil]

/-- The values of variables that are each read back. -/
theorem valuesFrom_eq {p : RoutePattern} {found : Regex.Cursor} {params : Mapping Value} {index : Nat}
    {vars : List Variable} (hcount : index + vars.length ≤ p.whole.captureCount + 1)
    (hcaptured : ∀ i v, (vars.map fun v => codedParam params v.name)[i]? = some v → found.captured (index + i) = some v)
    (hvalues : ∀ v ∈ vars, variableValue p v (some (codedParam params v.name)) = .ok (paramValue params v.name)) :
    valuesFrom p found index vars = .ok (vars.map fun v => (v.name, paramValue params v.name)) := by
  induction vars generalizing index with
  | nil => rfl
  | cons v vars ih =>
    rw [List.forall_mem_cons] at hvalues
    have hfirst : found.captured index = some (codedParam params v.name) := hcaptured 0 _ rfl
    have hrest : valuesFrom p found (index + 1) vars = .ok (vars.map fun v => (v.name, paramValue params v.name)) := by
      refine ih (by simp only [List.length_cons] at hcount; omega) (fun i x hi => ?_) hvalues.2
      rw [Nat.add_right_comm]
      exact hcaptured (i + 1) x (by simpa using hi)
    have hindex : ¬ p.whole.captureCount < index := by
      simp only [List.length_cons] at hcount
      omega
    rw [valuesFrom, if_neg hindex, hfirst, hvalues.1, hrest]
    rfl

/-- Merging values of new names into no other parameters. -/
theorem mergeParams_eq {r : Route} (hr : r.defaults = .empty) {entries : List (Text × Value)}
    (h : (entries.map Prod.fst).Nodup) : r.mergeParams ⟨entries⟩ .empty = ⟨entries⟩ := by
  rw [mergeParams, hr]
  refine @Mapping.foldl_eq_of_new _ _ ?_ [] _ h
  intro m e he
  have hnew : m.contains e.1 = false := by
    rw [Mapping.contains, Mapping.get?, Mapping.find_eq_none_iff.mpr he]
    rfl
  simp only [hnew, Bool.and_false, Bool.false_eq_true, if_false]

end Route

/-! ### The round trip -/

/-- Whether some parameters are those of a route and no others: a text for each variable by itself, a list of texts for
one in a repeated group, and no text empty. -/
structure Suits (params : Mapping Value) (steps : List Token) (last : Option Text) : Prop where
  nodup : params.keys.Nodup
  texts : GivesTexts params (namesOf steps)
  items : ∀ name ∈ last, GivesItems params name
  others : ∀ name, name ∉ namesOf (withRun steps last) → params.get? name = none

theorem namesOf_withRun (steps : List Token) (last : Option Text) :
    namesOf (withRun steps last) = namesOf steps ++ last.toList := by
  rw [withRun, namesOf_append]
  cases last <;> simp [runToken, namesOf, Token.names]

theorem isName_of_last {path delimiter : Text} {t : Tokenized} {steps : List Token} {last : Option Text}
    (ht : tokenize delimiter path = .ok t) (htokens : t.tokens = withRun steps last) : ∀ name ∈ last, IsName name := by
  intro name hname
  apply isName_of_tokenize ht
  rw [htokens, namesOf_withRun]
  exact List.mem_append_right _ (Option.mem_toList.mpr hname)

/-- The values of a match are the parameters. -/
theorem get?_values {params : Mapping Value} {steps : List Token} {last : Option Text} (h : Suits params steps last)
    (name : Text) :
    Mapping.get? ⟨(namesOf (withRun steps last)).map fun n => (n, Route.paramValue params n)⟩ name =
      params.get? name := by
  rw [Mapping.get?_map]
  split
  · next hname =>
    rw [namesOf_withRun, List.mem_append, Option.mem_toList] at hname
    rcases hname with hname | hname
    · obtain ⟨t, -, hget⟩ := h.texts name hname
      rw [Route.paramValue, hget]
      rfl
    · obtain ⟨items, -, hget⟩ := h.items name hname
      rw [Route.paramValue, hget]
      rfl
  · next hname => exact (h.others name hname).symm

namespace RoutePattern

variable {p : RoutePattern} {steps : List Token} {last : Option Text} {params : Mapping Value}

/-- A pattern with such tokens is assigned without an error. -/
theorem assigned_of_withRun {path : Text} {t : Tokenized} {rule : Rule} (ht : tokenize ['/'] path = .ok t)
    (hrule : t.rule = .ok rule) (htokens : t.tokens = withRun steps last) (hsteps : Spaced true steps)
    (names : List Text) :
    Assigned ⟨path, names, t, rule, exprOf '/' false 0 (withRun steps last),
      Regex.seqAll [exprOf '/' false 0 (withRun steps last), Regex.optionalSlash],
      last.toList.map fun name => (name, roundExpr name)⟩ ['/'] := by
  have hvars : rule.vars = varsOf none t.tokens := by
    rw [tokensRule_eq_ok hrule]
    rfl
  rw [← htokens]
  refine assigned_of_captures ht hrule (htokens ▸ capturesOf_withRun hsteps) ?_ names
  rw [hvars, htokens, varsOf_withRun hsteps]
  exact Route.outcome_splittersOf _ (isName_of_last ht htokens)

/-- The expression of the paths of such a route. -/
theorem Assigned.whole_withRun (hp : p.Assigned ['/']) (htokens : p.tokens.tokens = withRun steps last)
    (hsteps : Spaced true steps) :
    p.whole = Regex.seqAll [exprOf '/' false 0 (withRun steps last), Regex.optionalSlash] := by
  have hentry := hp.entry
  rw [hp.regex_eq, htokens, read_regexOf (capturesOf_withRun hsteps), Except.ok.injEq] at hentry
  rw [hp.whole_eq, hentry]

/-- A match that captured the coded parameters has them as its values. -/
theorem Assigned.values_withRun (hp : p.Assigned ['/']) (htokens : p.tokens.tokens = withRun steps last)
    (hsteps : Spaced true steps) (hparams : Suits params steps last) {found : Regex.Cursor}
    (hfound : ∀ i v, ((namesOf (withRun steps last)).map (codedParam params))[i]? = some v →
      found.captured (i + 1) = some v) :
    Route.valuesFrom p found 1 p.rule.vars =
      .ok ((namesOf (withRun steps last)).map fun n => (n, Route.paramValue params n)) := by
  have hvars : p.rule.vars = varsOf none (withRun steps last) := by rw [hp.vars_eq, htokens]
  have hnames : p.rule.vars.map Variable.name = namesOf (withRun steps last) := by rw [hvars, map_name_varsOf]
  have hcount : p.whole.captureCount = p.rule.vars.length := by
    rw [hp.whole_withRun htokens hsteps, ← List.length_map Variable.name, hnames, ← captureCount_withRun hsteps 0]
    rfl
  have hsplitters : p.splitters = last.toList.map fun name => (name, roundExpr name) := by
    have h := hp.splitters
    rw [hvars, varsOf_withRun hsteps, Route.outcome_splittersOf _ (isName_of_last hp.tokens htokens)] at h
    exact (Except.ok.inj h).symm
  have hvalues : ∀ v ∈ p.rule.vars,
      Route.variableValue p v (some (codedParam params v.name)) = .ok (Route.paramValue params v.name) := by
    rw [hvars, varsOf_withRun hsteps, List.forall_mem_append, List.forall_mem_map, List.forall_mem_map]
    refine ⟨fun name hname => ?_, fun name hname => ?_⟩
    · obtain ⟨t, ht, hget⟩ := hparams.texts name hname
      exact Route.variableValue_text ht hget
    · have hname := Option.mem_toList.mp hname
      obtain ⟨items, hitems, hget⟩ := hparams.items name hname
      apply Route.variableValue_items hitems hget
      rw [hsplitters, Option.mem_def.mp hname]
      simp
  have hcaptured : ∀ i v, (p.rule.vars.map fun v => codedParam params v.name)[i]? = some v →
      found.captured (1 + i) = some v := by
    intro i v hi
    rw [Nat.add_comm]
    apply hfound i v
    rw [← hnames, List.map_map]
    exact hi
  rw [Route.valuesFrom_eq (by omega) hcaptured hvalues, ← hnames, List.map_map]
  rfl

end RoutePattern

namespace Branch

/-- A branch without others below it selects its route if the route matches the path. -/
theorem select_leaf {r : Route} (hr : r.IsMade) {path : Text} (hentry : r.pattern.entry.hasPossessive = false)
    (hwhole : r.pattern.whole.hasPossessive = false) {found : Regex.Cursor}
    (hfound : r.pattern.whole.matchWhole path = some found) :
    (node r []).select path = .ok (some ⟨[], r, found⟩) := by
  have htakes : r.takes path = true := by rw [Route.takes, hfound]; rfl
  obtain ⟨start, hstart⟩ := Option.isSome_iff_exists.mp (Route.starts_of_takes hr htakes)
  have hsound := Regex.sound_matchStart hentry path
  rw [hstart] at hsound
  rw [select_of_starts (by rw [hstart]; exact hsound), selectSelf, Regex.sound_matchWhole hwhole, hfound]
  rfl

/-- A route without others below it, whose variables are kept apart by slashes and perhaps followed by a repeated group
with a variable, matches the path that it writes for some parameters, and gives those parameters. -/
theorem matchPath_path {r : Route} (hr : r.IsMade) (hdelimiter : r.delimiter = ['/']) (hdefaults : r.defaults = .empty)
    (hquery : r.pattern.queryNames = []) {steps : List Token} {last : Option Text}
    (htokens : r.pattern.tokens.tokens = withRun steps last) (hsteps : Spaced true steps)
    (hlast : last.isSome → steps ≠ []) {params : Mapping Value} (hparams : Suits params steps last) :
    ∃ path found, r.path params = .ok path ∧
      ((node r []).matchPath (Text.dropLeading '/' path) .empty .empty).outcome = .ok (some found) ∧
      found.above = [] ∧ found.route = r ∧ ∀ name, found.params.get? name = params.get? name := by
  have hp := hr.assigned
  rw [hdelimiter] at hp
  -- the path is spelled with the coded parameters
  obtain ⟨t, hspells, hwrite⟩ :=
    PathFor.write_withRun ⟨r.name, r.pattern.path⟩ hsteps hparams.texts hparams.items []
  have hhead : t.head? ≠ some '/' := hspells.head_ne_slash hp.tokens htokens hr.head_ne_slash hsteps hlast
  have hpath : r.path params = .ok (if t.isEmpty then [] else '/' :: t) := by
    rw [Route.path, Route.text, hdefaults, Mapping.putAll_empty hparams.nodup, htokens, hwrite]
    simp only [Except.map, List.nil_append, dropLeading_of_head_ne hhead]
  have hdrop : Text.dropLeading '/' (if t.isEmpty then [] else '/' :: t) = t := by
    split
    · next hempty =>
      rw [List.isEmpty_iff.mp hempty]
      rfl
    · exact dropLeading_of_head_ne hhead
  -- so its match captures them
  obtain ⟨found, hfound, hcaptured⟩ := captured_of_matchWhole hsteps hspells
  have hwhole := hp.whole_withRun htokens hsteps
  rw [← hwhole] at hfound
  have hregular : (Regex.seqAll [r.pattern.entry, Regex.optionalSlash]).IsRegular := by
    rw [← hp.whole_eq, hwhole]
    exact ⟨isRegular_exprOf _ _ _ _, trivial, trivial⟩
  have hselect : (node r []).select t = .ok (some ⟨[], r, found⟩) := by
    refine select_leaf hr (Regex.hasPossessive_of_isRegular hregular.1) ?_ hfound
    rw [hp.whole_eq]
    exact Regex.hasPossessive_of_isRegular hregular
  have hnodup : ((namesOf (withRun steps last)).map fun n => (n, Route.paramValue params n)).map Prod.fst |>.Nodup := by
    have hrule := nodup_of_tokensRule hp.rule List.nodup_nil
    rw [hp.vars_eq, map_name_varsOf, htokens] at hrule
    rw [List.map_map]
    exact (List.map_id' _).symm ▸ hrule
  have hvalues : r.values found = .ok ⟨(namesOf (withRun steps last)).map fun n => (n, Route.paramValue params n)⟩ := by
    rw [Route.values, hp.values_withRun htokens hsteps hparams hcaptured, Except.map, Mapping.ofList_eq hnodup]
  have hqueryParams : Selection.queryParams ⟨[], r, found⟩ .empty .empty = .empty := by
    simp [Selection.queryParams, Route.pickQuery, hquery, Mapping.ofList, Mapping.putAllNew, Mapping.putAll,
      Mapping.empty]
  refine ⟨_, ⟨[], r, ⟨(namesOf (withRun steps last)).map fun n => (n, Route.paramValue params n)⟩⟩, hpath, ?_, rfl, rfl,
    get?_values hparams⟩
  rw [hdrop, outcome_matchPath_of_select hselect]
  simp only [Option.elim, Selection.matched, hvalues, Except.map, hqueryParams, Route.mergeParams_eq hdefaults hnodup]

/-- The route `a/{v}[/{t}]*` reads back the texts `x/ÿ %` and `1`, `?`. -/
theorem coded_texts_are_read_back :
    ∃ r : Route, r.pattern.path = "a/\x7bv\x7d[/\x7bt\x7d]*".toList ∧ ∃ path found,
      r.path ⟨[(['v'], .str "x/ÿ %".toList), (['t'], .list [.str ['1'], .str ['?']])]⟩ = .ok path ∧
      ((node r []).matchPath (Text.dropLeading '/' path) .empty .empty).outcome = .ok (some found) ∧
      found.above = [] ∧ found.route = r ∧ ∀ name, found.params.get? name =
        Mapping.get? ⟨[(['v'], .str "x/ÿ %".toList), (['t'], .list [.str ['1'], .str ['?']])]⟩ name := by
  have htokens : tokenize ['/'] "a/\x7bv\x7d[/\x7bt\x7d]*".toList = .ok ⟨"a/\x7bv\x7d[/\x7bt\x7d]*".toList,
      withRun [.literal "a/".toList, .variable ['v'] (defaultCapture ['/'])] (some ['t'])⟩ := by
    cbv
  have hrule : Tokenized.rule ⟨"a/\x7bv\x7d[/\x7bt\x7d]*".toList,
      withRun [.literal "a/".toList, .variable ['v'] (defaultCapture ['/'])] (some ['t'])⟩ =
      .ok ⟨"a/([^/]+)((?:/[^/]+)*)".toList, [⟨['v'], none⟩, ⟨['t'], some "/\x7bt\x7d".toList⟩]⟩ := by
    cbv
  have hspaced : Spaced true [.literal "a/".toList, .variable ['v'] (defaultCapture ['/'])] := by
    exact .literal (.var .nil)
  have hsplit : splitSuffix "a/\x7bv\x7d[/\x7bt\x7d]*".toList = ("a/\x7bv\x7d[/\x7bt\x7d]*".toList, []) := by
    cbv
  have hassigned := RoutePattern.assigned_of_withRun htokens hrule rfl hspaced []
  have hmade := @RoutePattern.ofText_of_assigned _ _ "a/\x7bv\x7d[/\x7bt\x7d]*".toList hassigned
    (by rw [hsplit]; rfl) (by rw [hsplit])
  have hsuits : Suits ⟨[(['v'], .str "x/ÿ %".toList), (['t'], .list [.str ['1'], .str ['?']])]⟩
      [.literal "a/".toList, .variable ['v'] (defaultCapture ['/'])] (some ['t']) := by
    refine ⟨by decide, ?_, ?_, ?_⟩
    · simp only [GivesTexts, namesOf, Token.names, List.nil_append, List.append_nil, List.forall_mem_singleton]
      exact ⟨"x/ÿ %".toList, by decide, rfl⟩
    · rintro name hname
      rw [← Option.some.inj hname]
      exact ⟨[['1'], ['?']], by decide, rfl⟩
    · intro name hname
      rw [namesOf_withRun] at hname
      simp only [namesOf, Token.names, List.nil_append, List.append_nil, Option.toList_some, List.singleton_append,
        List.mem_cons, List.not_mem_nil, or_false, not_or] at hname
      rw [Mapping.get?, Mapping.find_eq_none_iff]
      simpa using hname
  obtain ⟨p, hp, hpath, hquery, hshape⟩ : ∃ p : RoutePattern,
      (RoutePattern.ofText ['/'] "a/\x7bv\x7d[/\x7bt\x7d]*".toList).outcome = .ok p ∧
      p.path = "a/\x7bv\x7d[/\x7bt\x7d]*".toList ∧ p.queryNames = [] ∧
      p.tokens.tokens = withRun [.literal "a/".toList, .variable ['v'] (defaultCapture ['/'])] (some ['t']) :=
    ⟨_, hmade, rfl, rfl, rfl⟩
  obtain ⟨r, hr, hdelimiter, hdefaults, hpattern⟩ : ∃ r : Route, r.IsMade ∧ r.delimiter = ['/'] ∧ r.defaults = .empty ∧
      r.pattern = p := ⟨{ id := 0, delimiter := ['/'], pattern := p }, ⟨_, hp⟩, rfl, rfl, rfl⟩
  refine ⟨r, hpattern ▸ hpath, ?_⟩
  exact matchPath_path hr hdelimiter hdefaults (hpattern ▸ hquery) (hpattern ▸ hshape) hspaced
    (fun _ => List.cons_ne_nil _ _) hsuits

end Branch

end Routing
