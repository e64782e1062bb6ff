import Routing.Proofs.Tree.Assignments
import Routing.Proofs.Tree.Precedence

/-!
# The query variables of a chain

A match takes from the query what the routes declare on the way from the root down to the matched route. The query of
a link to the route is taken from the parameters in the same way, but starts below the root. So both take the same,
also in the same order, where the root declares no query variable (`chainQuery_of_fetch`). A root with a pattern that
declares some loses them in its links (`query_of_root_is_lost`).
-/

namespace Routing

namespace Mapping

variable {α : Type}

/-- Whether all values of a mapping are those that another one has. -/
def Within (m source : Mapping α) : Prop := ∀ name value, m.get? name = some value → source.get? name = some value

theorem within_empty (source : Mapping α) : (empty : Mapping α).Within source := by
  intro name value h
  cases h

/-- Setting a name to the value that it has changes nothing. -/
theorem put_of_get? {m : Mapping α} {name : Text} {value : α} (h : m.get? name = some value) :
    m.put name value = m := by
  obtain ⟨entries⟩ := m
  suffices hinsert : insert name value entries = entries by rw [put, hinsert]
  rw [get?] at h
  induction entries with
  | nil => cases h
  | cons e rest ih =>
    obtain ⟨k, v⟩ := e
    rw [find] at h
    rw [insert]
    split
    · next hk =>
      rw [if_pos hk] at h
      rw [Option.some.inj h]
    · next hk =>
      rw [if_neg hk] at h
      rw [ih h]

/-- Where all values come from one source, a later value of a name is no other than an earlier one. -/
theorem Within.put_eq_putNew {m source : Mapping α} (hm : m.Within source) {name : Text} {value : α}
    (h : source.get? name = some value) : m.put name value = m.putNew name value := by
  rw [putNew, contains]
  cases hget : m.get? name with
  | none => simp
  | some old =>
    obtain rfl : old = value := Option.some.inj ((hm name old hget).symm.trans h)
    simpa using put_of_get? hget

theorem Within.putNew {m source : Mapping α} (hm : m.Within source) {name : Text} {value : α}
    (h : source.get? name = some value) : (m.putNew name value).Within source := by
  intro other found hfound
  rw [get?_putNew, Option.or_eq_some_iff] at hfound
  rcases hfound with hold | ⟨-, hnew⟩
  · exact hm other found hold
  · split at hnew
    · next hname => rw [← hname, h, hnew]
    · cases hnew

/-- Where all values come from one source, it does not matter whether the earlier or the later ones win. -/
theorem Within.putAll_eq {m other source : Mapping α} (hm : m.Within source)
    (h : ∀ e ∈ other.entries, source.get? e.1 = some e.2) :
    m.putAll other = m.putAllNew other ∧ (m.putAllNew other).Within source := by
  obtain ⟨entries⟩ := other
  rw [putAll, putAllNew]
  induction entries generalizing m with
  | nil => exact ⟨rfl, hm⟩
  | cons e rest ih =>
    obtain ⟨hfirst, hrest⟩ := List.forall_mem_cons.mp h
    obtain ⟨k, v⟩ := e
    rw [List.foldl_cons, List.foldl_cons]
    dsimp only
    rw [hm.put_eq_putNew hfirst]
    exact ih (hm.putNew hfirst) hrest

end Mapping

/-- What a route picks are values of the parameters. -/
theorem Route.get?_of_mem_pickQuery {r : Route} {params : Mapping Value} {e : Text × Value}
    (h : e ∈ (r.pickQuery params).entries) : params.get? e.1 = some e.2 := by
  have hnodup : (r.pickQuery params).keys.Nodup := Mapping.nodup_keys_ofList _
  have hget := Mapping.get?_of_mem hnodup h
  have hpicked : (r.pickQuery params).get? e.1 = some e.2 := hget
  rw [Route.get?_pickQuery] at hpicked
  split at hpicked
  · exact (Option.filter_eq_some_iff.mp hpicked).1
  · cases hpicked

/-- What the routes of a chain pick is the same whether the routes further up or those further down win. -/
theorem foldl_putAll_pickQuery (chain : Lineage) (params : Mapping Value) {m : Mapping Value} (hm : m.Within params) :
    chain.foldl (fun query r => query.putAll (r.pickQuery params)) m =
      chain.foldl (fun query r => query.putAllNew (r.pickQuery params)) m := by
  induction chain generalizing m with
  | nil => rfl
  | cons r chain ih =>
    obtain ⟨heq, hwithin⟩ :=
      hm.putAll_eq fun e (he : e ∈ (r.pickQuery params).entries) => Route.get?_of_mem_pickQuery he
    rw [List.foldl_cons, List.foldl_cons, heq]
    exact ih hwithin

namespace Branch

theorem exists_lineage_of_fetch {above : List Route} {b : Branch} {names : List Text} {p : Place}
    (h : b.fetch above names = .ok p) : ∃ rest, p.lineage = above ++ b.route :: rest := by
  induction names generalizing above b with
  | nil =>
    rw [fetch, Except.ok.injEq] at h
    exact ⟨[], by rw [← h]; rfl⟩
  | cons segment names ih =>
    rw [fetch] at h
    split at h
    · obtain ⟨rest, hrest⟩ := ih h
      exact ⟨_, by rw [hrest, List.append_assoc, List.singleton_append]⟩
    · cases h

/-- What the routes of a chain take from a query. -/
def takenBy (chain : Lineage) (query : Mapping Value) : Mapping Value :=
  chain.foldl (fun params r => params.putAllNew (r.pickQuery query)) .empty

theorem queryParams_empty (s : Selection) (query : Mapping Value) :
    s.queryParams query .empty = takenBy (s.above ++ [s.route]) query := rfl

theorem get?_takenBy (chain : Lineage) (query : Mapping Value) (key : Text) :
    (takenBy chain query).get? key = queried chain query .empty key := by
  rcases List.eq_nil_or_concat chain with rfl | ⟨above, route, rfl⟩
  · simp [takenBy, queried]
  · rw [List.concat_eq_append]
    exact get?_queryParams ⟨above, route, .ofText []⟩ query .empty key

/-- What is taken by a chain is what is taken below its first route and, for other names, what that route picks. -/
theorem get?_takenBy_cons (r : Route) (chain : Lineage) (query : Mapping Value) (key : Text) :
    (takenBy (r :: chain) query).get? key = ((takenBy chain query).get? key).or ((r.pickQuery query).get? key) := by
  rw [get?_takenBy, get?_takenBy, Route.get?_pickQuery, queried, queried]
  by_cases hr : key ∈ r.pattern.queryNames
  · by_cases hchain : ∃ s ∈ chain, key ∈ s.pattern.queryNames
    · cases (query.get? key).filter (!·.isNull) <;> simp [hr, hchain]
    · simp [hr, hchain]
  · simp [hr]

theorem takenBy_cons_of_nil {r : Route} (h : r.pattern.queryNames = []) (chain : Lineage) (query : Mapping Value) :
    takenBy (r :: chain) query = takenBy chain query := by
  have hpick : r.pickQuery query = .empty := by
    rw [Route.pickQuery, h]
    rfl
  rw [takenBy, List.foldl_cons, hpick]
  rfl

end Branch

namespace Router

open Branch

theorem ok_of_toOption {ε α : Type} {x : Except ε α} {a : α} (h : x.toOption = some a) : x = .ok a := by
  cases x with
  | error e => cases h
  | ok b => rw [← Option.some.inj h]

/-- The query of a link to a route is what the routes below the root take from the parameters on the way to it. If the
root declares no query variable, this is what a match of the route takes from a query with the parameters; otherwise the
match takes what the root picks as well. -/
theorem chainQuery_of_fetch {r : Router} {name : RouteName} {p : Place} (hp : r.tree.fetch name = .ok p)
    (params : Mapping Value) :
    ∃ q, r.chainQuery name params = .ok q ∧
      (∀ key, q.get? key = queried p.lineage.tail params .empty key) ∧
      (∀ key, (takenBy p.lineage params).get? key =
        (q.get? key).or ((r.tree.root.route.pickQuery params).get? key)) ∧
      (r.tree.root.route.pattern.queryNames = [] → takenBy p.lineage params = q) ∧
      ∀ path m, (r.tree.root.matchPath path params .empty).outcome = .ok (some m) → m.above ++ [m.route] = p.lineage →
        ∃ found values, m.route.values found = .ok values ∧
          m.params = m.route.mergeParams values (takenBy p.lineage params) := by
  obtain ⟨names, hnames, hfetch⟩ := Pattern.bind_eq_ok.mp hp
  obtain ⟨rest, hlineage⟩ := exists_lineage_of_fetch hfetch
  rw [List.nil_append] at hlineage
  have hquery : r.chainQuery name params = .ok (takenBy rest params) := by
    refine Pattern.bind_eq_ok.mpr ⟨names, hnames, Pattern.bind_eq_ok.mpr ⟨p, hfetch, ?_⟩⟩
    rw [hlineage, takenBy, ← foldl_putAll_pickQuery rest params (Mapping.within_empty params)]
    rfl
  refine ⟨_, hquery, ?_, ?_, ?_, ?_⟩
  · intro key
    rw [hlineage, List.tail_cons, get?_takenBy]
  · intro key
    rw [hlineage]
    exact get?_takenBy_cons _ rest params key
  · intro hroot
    rw [hlineage]
    exact takenBy_cons_of_nil hroot rest params
  · intro path m hm hchain
    obtain ⟨q, -, found, -, hmatched⟩ := place_of_matchPath hm
    obtain ⟨values, hvalues, rfl⟩ := Selection.matched_eq_ok hmatched
    refine ⟨found, values, hvalues, ?_⟩
    rw [queryParams_empty]
    exact congrArg (q.route.mergeParams values) (congrArg (takenBy · params) hchain)

/-- The routes `post?{page}` and, below it, `{id:\d}?{tab}`: a link and a match both take the values of `page` and
`tab`. -/
theorem link_takes_what_match_takes : ∃ (r : Router) (p : Place) (params q : Mapping Value),
    params = ⟨[("tab".toList, .str ['x']), ("id".toList, .str ['7']), ("page".toList, .str ['2'])]⟩ ∧
    q = ⟨[("page".toList, .str ['2']), ("tab".toList, .str ['x'])]⟩ ∧
    r.tree.fetch (.dotted "post.id".toList) = .ok p ∧ r.tree.root.route.pattern.queryNames = [] ∧
    r.chainQuery (.dotted "post.id".toList) params = .ok q ∧ takenBy p.lineage params = q ∧
    (r.tree.root.matchPath "post/7".toList params .empty).Gives fun found =>
      found.map Matched.params = some ⟨q.entries ++ [("id".toList, .str ['7'])]⟩ := by
  let params : Mapping Value :=
    ⟨[("tab".toList, .str ['x']), ("id".toList, .str ['7']), ("page".toList, .str ['2'])]⟩
  let q : Mapping Value := ⟨[("page".toList, .str ['2']), ("tab".toList, .str ['x'])]⟩
  have hrun : (Tree.ofRoutes ['/'] [(.dotted "post".toList, { pattern := "post?\x7bpage\x7d".toList }),
      (.dotted "post.id".toList, { pattern := "\x7bid:\\d\x7d?\x7btab\x7d".toList })]).Gives fun t =>
        (t.root.route.pattern.queryNames = [] ∧ (t.fetch (.dotted "post.id".toList)).toOption.isSome = true ∧
          (Router.chainQuery ⟨{}, [], t, none, .empty⟩ (.dotted "post.id".toList) params).toOption = some q) ∧
        (t.root.matchPath "post/7".toList params .empty).Gives fun found =>
          found.map Matched.params = some ⟨q.entries ++ [("id".toList, .str ['7'])]⟩ := by
    cbv
    exact ⟨rfl, rfl⟩
  obtain ⟨t, -, ⟨hroot, hfetch, hquery⟩, hmatch⟩ := Traced.exists_of_gives hrun
  cases hp : t.fetch (.dotted "post.id".toList) with
  | error e =>
    rw [hp] at hfetch
    cases hfetch
  | ok p =>
    obtain ⟨taken, htaken, -, -, hsame, -⟩ := chainQuery_of_fetch (r := ⟨{}, [], t, none, .empty⟩) hp params
    rw [htaken] at hquery
    obtain rfl : taken = q := Option.some.inj hquery
    exact ⟨_, p, params, _, rfl, rfl, hp, hroot, htaken, hsame hroot, hmatch⟩

/-- The pattern `?{lang}` is assigned to the root, and the route `a` is added. A match of `/x?lang=fr` has the value of
`lang`, but the query of a link with that parameter is empty, and so the link is `/x`. -/
theorem query_of_root_is_lost : ∃ (log : List Event) (r : Router) (p : Place) (params : Mapping Value),
    Runs ['/'] log r.tree ∧ params = ⟨[("lang".toList, .str "fr".toList)]⟩ ∧
    r.tree.fetch (.dotted "a".toList) = .ok p ∧ p.route.name = "a".toList ∧
    (takenBy p.lineage params).get? "lang".toList = some (.str "fr".toList) ∧
    r.chainQuery (.dotted "a".toList) params = .ok .empty ∧
    (∃ found, (r.matchLocation "/x?lang=fr".toList).outcome = .ok (some found) ∧ found.params = params) ∧
    r.link (.dotted "a".toList) params none {} = .ok "/x".toList := by
  let params : Mapping Value := ⟨[("lang".toList, .str "fr".toList)]⟩
  have hrun : (Tree.create ['/']).Gives fun t₀ =>
      (t₀.assign [] "?\x7blang\x7d".toList).Gives fun done => done.2.2 = none ∧
      (done.1.add (.dotted "a".toList) { pattern := "x".toList }).Gives fun t =>
      (Traced.mk [] (t.fetch (.dotted "a".toList))).Gives fun p =>
      (Traced.mk [] (Router.chainQuery ⟨{}, [], t, none, .empty⟩ (.dotted "a".toList) params)).Gives fun q =>
      (Traced.mk [] (Router.linkTo ⟨{}, [], t, none, .empty⟩ (.dotted "a".toList) params none {})).Gives fun link =>
        p.route.name = "a".toList ∧ (takenBy p.lineage params).get? "lang".toList = some (.str "fr".toList) ∧
        q = .empty ∧ link = "/x".toList ∧
        (Router.matchLocation ⟨{}, [], t, none, .empty⟩ "/x?lang=fr".toList).outcome.toOption.map
          (Option.map Transition.params) = some (some params) := by
    cbv
  obtain ⟨t₀, h₀, hrun⟩ := Traced.exists_of_gives hrun
  obtain ⟨⟨t₁, changed, failure⟩, h₁, rfl, hrun⟩ := Traced.exists_of_gives hrun
  obtain ⟨t, h₂, hrun⟩ := Traced.exists_of_gives hrun
  obtain ⟨p, hp, hrun⟩ := Traced.exists_of_gives hrun
  obtain ⟨_, hquery, hrun⟩ := Traced.exists_of_gives hrun
  obtain ⟨_, hlink, hname, htaken, rfl, rfl, hmatch⟩ := Traced.exists_of_gives hrun
  obtain ⟨_, hsome, hmap⟩ := Option.map_eq_some_iff.mp hmatch
  obtain ⟨found, rfl, hparams⟩ := Option.map_eq_some_iff.mp hmap
  have hfound := ok_of_toOption hsome
  obtain ⟨parent, route, hadds⟩ := Tree.exists_adds_of_add h₂
  have hruns := ((Runs.create h₀).assign h₁).add h₂ hadds
  refine ⟨_, ⟨{}, [], t, none, .empty⟩, p, params, hruns, rfl, hp, hname, htaken, hquery, ⟨found, hfound, hparams⟩, ?_⟩
  have hrelative : isAbsolute "a".toList = false := by decide
  rw [link, hrelative, if_neg Bool.false_ne_true]
  exact hlink

end Router

end Routing
