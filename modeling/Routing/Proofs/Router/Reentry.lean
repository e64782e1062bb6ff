import Routing.Proofs.Route.Failing
import Routing.Proofs.Route.RoundTrip
import Routing.Proofs.Router.Junction
import Routing.Proofs.Router.Search
import Routing.Proofs.Text.Quoted
import Routing.Proofs.Tree.Patterns

/-!
# Routes are entered again

Where a location leads to the chain of routes that is current already, the routes are kept down to the first one with
another value for one of its query variables: that one is left and entered again, with all routes below it
(`reenters_of_query`). Values are compared by their texts, so two values of a query count as the same also if one is the
text that the other is shown as.

A comparison looks at the links of the routes above, and ends with an error only where a capture among them is not sound
(`exists_common`).
-/

namespace Routing

open Pattern

/-- The tokens of a pattern that was assigned again and again are those of some text. -/
theorem RoutePattern.Reached.faithfulGroup {delimiter : Text} {sources : List Text} {p : RoutePattern}
    (h : Reached delimiter sources p) : GroupsAll (FaithfulGroup delimiter) p.tokens.tokens := by
  have hlast := List.mem_of_getLast? h.holdsLatest.tokens
  obtain ⟨source, -, hread⟩ := List.mem_filterMap.mp hlast
  rw [readTokens] at hread
  cases htokens : tokenize delimiter (pathOf source) with
  | error e =>
    rw [htokens] at hread
    cases hread
  | ok tokens =>
    rw [htokens] at hread
    obtain rfl : tokens = p.tokens := Option.some.inj hread
    exact faithfulGroup_of_tokenize htokens

namespace Transition

variable {t : Transition} {settings : Settings} {before : Mapping Value}

/-- A comparison of links that fails comes from a capture that is not sound. -/
theorem exists_capture_of_sameLink {r : Route} {delimiter : Text}
    (hts : GroupsAll (FaithfulGroup delimiter) r.pattern.tokens.tokens) {e : RouteError}
    (h : (t.sameLink settings r before).outcome = .error e) :
    ∃ c ∈ capturesOf r.pattern.tokens.tokens, ¬ IsSoundCapture c := by
  by_contra hnone
  have hsound : ∀ c ∈ capturesOf r.pattern.tokens.tokens, IsSoundCapture c :=
    fun c hc => by_contra fun hc' => hnone ⟨c, hc, hc'⟩
  obtain ⟨same, hsame⟩ := t.exists_sameLink settings hts hsound before
  rw [hsame] at h
  cases h

/-- What comparing a chain that starts with a route does with it and itself. -/
theorem outcome_common_self (r : Route) (chain : Lineage) :
    (t.common settings before (r :: chain) (r :: chain)).outcome =
      if r.sameQuery before t.params then
        (t.sameLink settings r before).outcome.bind fun same =>
          if same then (t.common settings before chain chain).outcome.map (· + 1) else .ok 0
      else .ok 0 := by
  have hrest : (do return (← t.common settings before chain chain) + 1 : Traced Nat).outcome =
      (t.common settings before chain chain).outcome.map (· + 1) := by
    rw [Traced.outcome_bind]
    cases (t.common settings before chain chain).outcome <;> rfl
  rw [common]
  cases hquery : r.sameQuery before t.params with
  | false => simp
  | true =>
    simp only [bne_self_eq_false, Bool.not_true, Bool.or_self, Bool.false_eq_true, if_false, if_true]
    rw [Traced.outcome_bind]
    cases (t.sameLink settings r before).outcome with
    | error e => rfl
    | ok same =>
      cases same with
      | false => rfl
      | true => exact hrest

/-- Comparing a chain with itself stops at a route with another query, or above. It fails only where the links of a
route above cannot be compared. -/
theorem exists_common {chain : Lineage} {i : Nat} {s : Route} (hs : chain[i]? = some s)
    (hquery : s.sameQuery before t.params = false) :
    (∃ k ≤ i, (t.common settings before chain chain).outcome = .ok k) ∨
      ∃ e, (t.common settings before chain chain).outcome = .error e ∧
        ∃ r ∈ chain.take i, (t.sameLink settings r before).outcome = .error e := by
  induction chain generalizing i with
  | nil => cases hs
  | cons r chain ih =>
    rw [outcome_common_self]
    cases hsame : r.sameQuery before t.params with
    | false => exact Or.inl ⟨0, Nat.zero_le i, rfl⟩
    | true =>
      cases i with
      | zero =>
        obtain rfl : r = s := by simpa using hs
        exact absurd (hsame.symm.trans hquery) nofun
      | succ i =>
        rw [List.take_succ_cons]
        cases hlink : (t.sameLink settings r before).outcome with
        | error e => exact Or.inr ⟨e, rfl, r, List.mem_cons_self, hlink⟩
        | ok same =>
          cases same with
          | false => exact Or.inl ⟨0, Nat.zero_le _, rfl⟩
          | true =>
            rcases ih (by simpa using hs) with ⟨k, hk, hcommon⟩ | ⟨e, hcommon, other, hother, herror⟩
            · exact Or.inl ⟨k + 1, Nat.succ_le_succ hk, by rw [hcommon]; rfl⟩
            · exact Or.inr ⟨e, by rw [hcommon]; rfl, other, List.mem_cons_of_mem _ hother, herror⟩

/-- What a comparison of a chain with itself counts is kept, and the rest is left and entered again. -/
theorem left_and_entered {chain : Lineage} {k : Nat} (hsource : t.source = some chain) (htarget : t.target = chain)
    (h : (t.common settings before chain chain).outcome = .ok k) :
    (t.disabled settings before).outcome = .ok (chain.drop k).reverse ∧
      (t.enabled settings before).outcome = .ok (chain.drop k) := by
  rw [outcome_disabled, outcome_enabled, outcome_junctionIndex, hsource, htarget, Option.getD_some, h]
  exact ⟨rfl, rfl⟩

/-- Where a comparison of a chain with itself fails, leaving and entering fail too. -/
theorem disabled_enabled_of_error {chain : Lineage} {e : RouteError} (hsource : t.source = some chain)
    (htarget : t.target = chain) (h : (t.common settings before chain chain).outcome = .error e) :
    (t.disabled settings before).outcome = .error e ∧ (t.enabled settings before).outcome = .error e := by
  rw [outcome_disabled, outcome_enabled, outcome_junctionIndex, hsource, htarget, Option.getD_some, h]
  exact ⟨rfl, rfl⟩

/-- So the routes from one with another query on are left and entered, or leaving and entering fail with the same
error. -/
theorem exists_disabled_enabled {chain : Lineage} {i : Nat} {s : Route} (hsource : t.source = some chain)
    (htarget : t.target = chain) (hs : chain[i]? = some s) (hquery : s.sameQuery before t.params = false) :
    (∃ left entered, (t.disabled settings before).outcome = .ok left ∧
      (t.enabled settings before).outcome = .ok entered ∧
      (chain.drop i).reverse <+: left ∧ chain.drop i <:+ entered) ∨
    ∃ e, (t.disabled settings before).outcome = .error e ∧ (t.enabled settings before).outcome = .error e ∧
      ∃ r ∈ chain.take i, (t.sameLink settings r before).outcome = .error e := by
  rcases exists_common hs hquery with ⟨k, hk, hcommon⟩ | ⟨e, hcommon, herror⟩
  · have hsuffix : chain.drop i <:+ chain.drop k := List.drop_suffix_drop_left chain hk
    obtain ⟨hleft, hentered⟩ := left_and_entered hsource htarget hcommon
    exact Or.inl ⟨_, _, hleft, hentered, List.reverse_prefix.mpr hsuffix, hsuffix⟩
  · obtain ⟨hleft, hentered⟩ := disabled_enabled_of_error hsource htarget hcommon
    exact Or.inr ⟨e, hleft, hentered, herror⟩

end Transition

/-- Two values of a query variable have different texts if neither of them is the text that the other is shown as. -/
theorem Route.sameQuery_eq_false {s : Route} {name : Text} (hname : name ∈ s.pattern.queryNames)
    {before after : Mapping Value} (hold : (paramValue before name).IsQueryValue)
    (hnew : (paramValue after name).IsQueryValue) (hdiffer : paramValue before name ≠ paramValue after name)
    (holdText : paramValue before name ≠ .str (paramValue after name).text)
    (hnewText : paramValue after name ≠ .str (paramValue before name).text) : s.sameQuery before after = false := by
  rw [← Bool.not_eq_true, Transition.sameQuery_iff]
  intro hsame
  rcases (Value.text_eq_iff hold hnew).mp (hsame name hname) with heq | heq | heq
  · exact hdiffer heq
  · exact hnewText heq
  · exact holdText heq

namespace Router

theorem lives_of_create {settings : Settings} {basePath delimiter : Option Text} {router : Router}
    (h : (create settings basePath delimiter).outcome = .ok router) :
    Lives (givenOr delimiter settings.delimiter) router.tree := by
  obtain ⟨tree, htree, h⟩ := Traced.bind_outcome_eq_ok.mp h
  rw [← Except.ok.inj h]
  exact .create htree

theorem lives_of_add {router grown : Router} {delimiter : Text} {name : RouteName} {spec : RouteSpec}
    (hlives : Lives delimiter router.tree) (h : (router.add name spec).outcome = .ok grown) :
    Lives delimiter grown.tree := by
  obtain ⟨tree, htree, h⟩ := Traced.bind_outcome_eq_ok.mp h
  rw [← Except.ok.inj h]
  exact .add hlives htree

/-- Where the current chain is found again with another value for a query variable of one of its routes, this route is
left and entered again, with all routes below it. The two values are those of a query, and neither of them is the text
that the other one is shown as. Only captures of the routes above can keep the routes from being compared: one that is
not sound. -/
theorem reenters_of_query {router : Router} {delimiter : Text} (hlives : Lives delimiter router.tree) {l₁ l₂ : Text}
    {t₁ t₂ : Transition} (h₁ : (router.matchLocation l₁).outcome = .ok (some t₁))
    (h₂ : ((router.commit t₁).matchLocation l₂).outcome = .ok (some t₂)) (hsame : t₂.target = t₁.target) {i : Nat}
    {s : Route} (hs : t₁.target[i]? = some s) {name : Text} (hname : name ∈ s.pattern.queryNames)
    (hold : (Route.paramValue t₁.params name).IsQueryValue) (hnew : (Route.paramValue t₂.params name).IsQueryValue)
    (hdiffer : Route.paramValue t₁.params name ≠ Route.paramValue t₂.params name)
    (holdText : Route.paramValue t₁.params name ≠ .str (Route.paramValue t₂.params name).text)
    (hnewText : Route.paramValue t₂.params name ≠ .str (Route.paramValue t₁.params name).text)
    (settings : Settings) :
    (∃ left entered, (t₂.disabled settings (router.commit t₁).currentParams).outcome = .ok left ∧
      (t₂.enabled settings (router.commit t₁).currentParams).outcome = .ok entered ∧
      (t₁.target.drop i).reverse <+: left ∧ t₁.target.drop i <:+ entered) ∨
    ∃ e, (t₂.disabled settings (router.commit t₁).currentParams).outcome = .error e ∧
      (t₂.enabled settings (router.commit t₁).currentParams).outcome = .error e ∧
      ∃ r ∈ t₁.target.take i, ∃ c ∈ capturesOf r.pattern.tokens.tokens, ¬ IsSoundCapture c := by
  have hsource : t₂.source = some t₁.target := (matchLocation_eq_some h₂).1
  have hquery : s.sameQuery t₁.params t₂.params = false :=
    Route.sameQuery_eq_false hname hold hnew hdiffer holdText hnewText
  rcases Transition.exists_disabled_enabled hsource hsame hs hquery with hentered | ⟨e, hleft, henter, r, hr, herror⟩
  · exact Or.inl hentered
  · obtain ⟨-, sources, hreached⟩ :=
      reached_of_lives hlives r ((matchLocation_eq_some h₁).2 (List.mem_of_mem_take hr))
    exact Or.inr ⟨e, hleft, henter, r, hr, Transition.exists_capture_of_sameLink hreached.faithfulGroup herror⟩

/-- After `/x/y?p=1&p=2` the location `/x/y?p=2` leaves the routes `a` and `a.b` and enters them again: `a` has the query
variable `p`, whose value was the list of `1` and `2`. -/
theorem list_and_item_differ :
    ∃ (router : Router) (l₁ l₂ : Text) (t₁ t₂ : Transition) (s : Route) (left entered : List Route),
      Lives ['/'] router.tree ∧ l₁ = "/x/y?p=1&p=2".toList ∧ l₂ = "/x/y?p=2".toList ∧
      (router.matchLocation l₁).outcome = .ok (some t₁) ∧
      ((router.commit t₁).matchLocation l₂).outcome = .ok (some t₂) ∧ t₂.target = t₁.target ∧
      t₁.target[1]? = some s ∧ ['p'] ∈ s.pattern.queryNames ∧
      Route.paramValue t₁.params ['p'] = .list [.str ['1'], .str ['2']] ∧
      Route.paramValue t₂.params ['p'] = .str ['2'] ∧
      (t₂.disabled {} (router.commit t₁).currentParams).outcome = .ok left ∧
      (t₂.enabled {} (router.commit t₁).currentParams).outcome = .ok entered ∧
      (t₁.target.drop 1).reverse <+: left ∧ t₁.target.drop 1 <:+ entered := by
  have hrun : (Router.create {} none none).Gives fun start =>
      (start.add (.dotted "a".toList) { pattern := "x?\x7bp\x7d".toList }).Gives fun r =>
      (r.add (.dotted "a.b".toList) { pattern := "y".toList }).Gives fun r =>
      (r.matchLocation "/x/y?p=1&p=2".toList).Gives fun found => found.elim False fun t₁ =>
      ((r.commit t₁).matchLocation "/x/y?p=2".toList).Gives fun found => found.elim False fun t₂ =>
      t₂.target = t₁.target ∧ (t₁.target[1]?.map fun s => s.pattern.queryNames) = some [['p']] ∧
      t₁.params.get? ['p'] = some (.list [.str ['1'], .str ['2']]) ∧ t₂.params.get? ['p'] = some (.str ['2']) ∧
      (t₂.common {} t₁.params t₂.target t₂.target).Gives fun k => k = 1 := by
    cbv
    refine ⟨?_, ?_, trivial⟩ <;> congr
  -- the locations are not to be evaluated again
  generalize "/x/y?p=1&p=2".toList = l₁ at hrun
  generalize "/x/y?p=2".toList = l₂ at hrun
  obtain ⟨start, hstart, hrun⟩ := Traced.exists_of_gives hrun
  obtain ⟨r, ha, hrun⟩ := Traced.exists_of_gives hrun
  obtain ⟨router, hb, hrun⟩ := Traced.exists_of_gives hrun
  obtain ⟨t₁, h₁, hrun⟩ := Traced.exists_some_of_gives hrun
  obtain ⟨t₂, h₂, htarget, hs, hget₁, hget₂, hrun⟩ := Traced.exists_some_of_gives hrun
  obtain ⟨k, hcommon, -⟩ := Traced.exists_of_gives hrun
  obtain ⟨s, hs, hnames⟩ := Option.map_eq_some_iff.mp hs
  have hlives : Lives ['/'] router.tree := lives_of_add (lives_of_add (lives_of_create hstart) ha) hb
  have hvalue₁ : Route.paramValue t₁.params ['p'] = .list [.str ['1'], .str ['2']] := by rw [Route.paramValue, hget₁]; rfl
  have hvalue₂ : Route.paramValue t₂.params ['p'] = .str ['2'] := by rw [Route.paramValue, hget₂]; rfl
  have hname : ['p'] ∈ s.pattern.queryNames := by simp [hnames]
  have hentered := reenters_of_query hlives h₁ h₂ htarget hs hname
    (hvalue₁ ▸ Or.inr (Or.inr ⟨[['1'], ['2']], rfl⟩)) (hvalue₂ ▸ Or.inr (Or.inl ⟨_, rfl⟩))
    (by simp [hvalue₁, hvalue₂]) (by simp [hvalue₁]) (by rw [hvalue₁, hvalue₂, Value.text_list]; simp) {}
  have hsource : t₂.source = some t₂.target := htarget ▸ (matchLocation_eq_some h₂).1
  have hkept := (Transition.left_and_entered hsource rfl hcommon).1
  rcases hentered with ⟨left, entered, hleft, henter, hprefix, hsuffix⟩ | ⟨e, hleft, -⟩
  · exact ⟨router, l₁, l₂, t₁, t₂, s, left, entered, hlives, rfl, rfl, h₁, h₂, htarget, hs, hname, hvalue₁,
      hvalue₂, hleft, henter, hprefix, hsuffix⟩
  · have hfails := hleft.symm.trans hkept
    cases hfails

/-- After `/a` the location `/a?page=None` leaves and enters nothing: the value that is missing at first is shown as the
text that is there then. -/
theorem missing_value_is_shown_as_text :
    ∃ (router : Router) (l₁ l₂ : Text) (t₁ t₂ : Transition) (s : Route),
      Lives ['/'] router.tree ∧ l₁ = "/a".toList ∧ l₂ = "/a?page=None".toList ∧
      (router.matchLocation l₁).outcome = .ok (some t₁) ∧
      ((router.commit t₁).matchLocation l₂).outcome = .ok (some t₂) ∧ t₂.target = t₁.target ∧
      t₁.target[1]? = some s ∧ "page".toList ∈ s.pattern.queryNames ∧
      Route.paramValue t₁.params "page".toList = .null ∧
      Route.paramValue t₂.params "page".toList = .str "None".toList ∧
      (t₂.disabled {} (router.commit t₁).currentParams).outcome = .ok [] ∧
      (t₂.enabled {} (router.commit t₁).currentParams).outcome = .ok [] := by
  have hrun : (Router.create {} none none).Gives fun start =>
      (start.add (.dotted "a".toList) { pattern := "a?\x7bpage\x7d".toList }).Gives fun r =>
      (r.matchLocation "/a".toList).Gives fun found => found.elim False fun t₁ =>
      ((r.commit t₁).matchLocation "/a?page=None".toList).Gives fun found => found.elim False fun t₂ =>
      t₂.target = t₁.target ∧ (t₁.target[1]?.map fun s => s.pattern.queryNames) = some ["page".toList] ∧
      t₁.target.length = 2 ∧
      t₁.params.get? "page".toList = none ∧ t₂.params.get? "page".toList = some (.str "None".toList) ∧
      (t₂.common {} t₁.params t₂.target t₂.target).Gives fun k => k = 2 := by
    cbv
    trivial
  generalize "/a".toList = l₁ at hrun
  generalize "/a?page=None".toList = l₂ at hrun
  obtain ⟨start, hstart, hrun⟩ := Traced.exists_of_gives hrun
  obtain ⟨router, ha, hrun⟩ := Traced.exists_of_gives hrun
  obtain ⟨t₁, h₁, hrun⟩ := Traced.exists_some_of_gives hrun
  obtain ⟨t₂, h₂, htarget, hs, hlength, hget₁, hget₂, hrun⟩ := Traced.exists_some_of_gives hrun
  obtain ⟨k, hcommon, rfl⟩ := Traced.exists_of_gives hrun
  obtain ⟨s, hs, hnames⟩ := Option.map_eq_some_iff.mp hs
  have hsource : t₂.source = some t₂.target := htarget ▸ (matchLocation_eq_some h₂).1
  have hnone : t₂.target.drop 2 = [] := List.drop_eq_nil_of_le (htarget ▸ hlength.le)
  have hkept := Transition.left_and_entered hsource rfl hcommon
  rw [hnone] at hkept
  have hvalue₁ : Route.paramValue t₁.params "page".toList = .null := by rw [Route.paramValue, hget₁]; rfl
  have hvalue₂ : Route.paramValue t₂.params "page".toList = .str "None".toList := by rw [Route.paramValue, hget₂]; rfl
  exact ⟨router, l₁, l₂, t₁, t₂, s, lives_of_add (lives_of_create hstart) ha, rfl, rfl, h₁, h₂, htarget, hs,
    by simp [hnames], hvalue₁, hvalue₂, hkept⟩

/-- After `/5/y?page=1` the location `/5/y?page=2` can be neither left nor entered. The capture of the route `a` above is
no regular expression by itself, so its links cannot be compared. -/
theorem halved_capture_is_not_compared :
    ∃ (router : Router) (l₁ l₂ : Text) (t₁ t₂ : Transition) (s : Route),
      Lives ['/'] router.tree ∧ l₁ = "/5/y?page=1".toList ∧ l₂ = "/5/y?page=2".toList ∧
      (router.matchLocation l₁).outcome = .ok (some t₁) ∧
      ((router.commit t₁).matchLocation l₂).outcome = .ok (some t₂) ∧ t₂.target = t₁.target ∧
      t₁.target[2]? = some s ∧ "page".toList ∈ s.pattern.queryNames ∧
      Route.paramValue t₁.params "page".toList = .str ['1'] ∧
      Route.paramValue t₂.params "page".toList = .str ['2'] ∧
      (t₂.disabled {} (router.commit t₁).currentParams).outcome = .error .badRegex ∧
      (t₂.enabled {} (router.commit t₁).currentParams).outcome = .error .badRegex := by
  have hrun : (Router.create {} none none).Gives fun start =>
      (start.add (.dotted "a".toList) { pattern := "\x7bv:\\d)(?:\x7d".toList }).Gives fun r =>
      (r.add (.dotted "a.b".toList) { pattern := "y?\x7bpage\x7d".toList }).Gives fun r =>
      (r.matchLocation "/5/y?page=1".toList).Gives fun found => found.elim False fun t₁ =>
      ((r.commit t₁).matchLocation "/5/y?page=2".toList).Gives fun found => found.elim False fun t₂ =>
      t₂.target = t₁.target ∧ (t₁.target[2]?.map fun s => s.pattern.queryNames) = some ["page".toList] ∧
      t₁.params.get? "page".toList = some (.str ['1']) ∧ t₂.params.get? "page".toList = some (.str ['2']) ∧
      (t₂.common {} t₁.params t₂.target t₂.target).outcome = .error .badRegex := by
    cbv
    trivial
  generalize "/5/y?page=1".toList = l₁ at hrun
  generalize "/5/y?page=2".toList = l₂ at hrun
  obtain ⟨start, hstart, hrun⟩ := Traced.exists_of_gives hrun
  obtain ⟨r, ha, hrun⟩ := Traced.exists_of_gives hrun
  obtain ⟨router, hb, hrun⟩ := Traced.exists_of_gives hrun
  obtain ⟨t₁, h₁, hrun⟩ := Traced.exists_some_of_gives hrun
  obtain ⟨t₂, h₂, htarget, hs, hget₁, hget₂, hcommon⟩ := Traced.exists_some_of_gives hrun
  obtain ⟨s, hs, hnames⟩ := Option.map_eq_some_iff.mp hs
  have hsource : t₂.source = some t₂.target := htarget ▸ (matchLocation_eq_some h₂).1
  have hvalue₁ : Route.paramValue t₁.params "page".toList = .str ['1'] := by rw [Route.paramValue, hget₁]; rfl
  have hvalue₂ : Route.paramValue t₂.params "page".toList = .str ['2'] := by rw [Route.paramValue, hget₂]; rfl
  exact ⟨router, l₁, l₂, t₁, t₂, s, lives_of_add (lives_of_add (lives_of_create hstart) ha) hb, rfl, rfl, h₁, h₂,
    htarget, hs, by simp [hnames], hvalue₁, hvalue₂, Transition.disabled_enabled_of_error hsource rfl hcommon⟩

end Router

end Routing
