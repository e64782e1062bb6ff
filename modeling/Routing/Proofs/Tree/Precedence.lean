import Routing.Proofs.Route.Precedence
import Routing.Proofs.Tree.Growth
import Routing.Proofs.Tree.Selection

/-!
# Parameters of a match

The query of a match is what was given with it, and the query variables that are declared between the start of the
search and the matched route (`get?_queryParams`). Together with the values of the path and the defaults of the matched
route it gives the parameters, and no other route has a say in them (`params_of_matchPath`).
-/

namespace Routing

open Pattern

namespace Branch

/-- The value that the query has for a name: the one given with it, else that of a query variable that a route on the
way declares. -/
def queried (chain : Lineage) (query given : Mapping Value) (name : Text) : Option Value :=
  (given.get? name).or
    (if ∃ r ∈ chain, name ∈ r.pattern.queryNames then (query.get? name).filter (!·.isNull) else none)

theorem get?_queryParams (s : Selection) (query given : Mapping Value) (name : Text) :
    (s.queryParams query given).get? name = queried (s.above ++ [s.route]) query given name := by
  rw [Selection.queryParams, queried]
  induction s.above ++ [s.route] generalizing given with
  | nil => simp
  | cons r chain ih =>
    rw [List.foldl_cons, ih, Mapping.get?_putAllNew, Route.get?_pickQuery, Option.or_assoc]
    by_cases hr : name ∈ r.pattern.queryNames
    · cases (query.get? name).filter (!·.isNull) <;> simp [hr]
    · simp [hr]

theorem nodup_keys_queryParams (s : Selection) (query : Mapping Value) {given : Mapping Value}
    (h : given.keys.Nodup) : (s.queryParams query given).keys.Nodup :=
  List.foldlRecOn (motive := fun m : Mapping Value => m.keys.Nodup) _ _ h
    fun _ hm r _ => Mapping.nodup_keys_putAllNew hm (r.pickQuery query)

/-- Without a query there are no query parameters. -/
theorem queryParams_leaf (r : Route) (found : Regex.Cursor) : Selection.queryParams ⟨[], r, found⟩ .empty .empty = .empty := by
  rw [Selection.queryParams, List.nil_append, List.foldl_cons, List.foldl_nil, Route.pickQuery_empty]
  rfl

/-- A match is that of a place of the branch. -/
theorem place_of_matchPath {b : Branch} {path : Text} {query given : Mapping Value} {m : Matched}
    (h : (b.matchPath path query given).outcome = .ok (some m)) : ∃ p ∈ b.postOrder, ∃ found,
      p.route.pattern.whole.matchWhole path = some found ∧
      Selection.matched ⟨p.above, p.route, found⟩ query given = .ok m := by
  rcases outcome_matchPath_cases b path query given with houtcome | ⟨herror, -⟩
  · rw [houtcome] at h
    cases hselected : b.postOrder.findSome? (Place.selection path) with
    | none => rw [hselected] at h; cases h
    | some s =>
      obtain ⟨p, hp, hselection⟩ := List.exists_of_findSome?_eq_some hselected
      have haccepts : p.accepts path = true := by
        rw [← Place.isSome_selection, hselection]
        rfl
      obtain ⟨found, hfound, heq⟩ := Place.selection_of_accepts haccepts
      rw [hselection, Option.some.injEq] at heq
      refine ⟨p, hp, found, hfound, ?_⟩
      rw [hselected, Option.elim, heq] at h
      cases hmatched : Selection.matched ⟨p.above, p.route, found⟩ query given with
      | error e => rw [hmatched] at h; cases h
      | ok m' => rw [hmatched] at h; rw [Option.some.inj (Except.ok.inj h)]
  · rw [herror] at h
    cases h

/-- The parameters of a match have for each name the first of these that there is: the value of a path variable that
is not absent, a value of the query, a default of the matched route, the absent value of a path variable. Of the query
variables those count that a route from the start of the search down to the matched route declares. -/
theorem params_of_matchPath {b : Branch} {path : Text} {query given : Mapping Value} {m : Matched}
    (hgiven : given.keys.Nodup) (h : (b.matchPath path query given).outcome = .ok (some m)) :
    (∃ p ∈ b.postOrder, p.above = m.above ∧ p.route = m.route) ∧
    ∃ found values, m.route.pattern.whole.matchWhole path = some found ∧ m.route.values found = .ok values ∧
      (∀ name, (values.get? name).isSome ↔ name ∈ m.route.pattern.rule.vars.map Variable.name) ∧
      (∀ name value, values.get? name = some value → Route.isAbsent value = true →
        ∃ v ∈ m.route.pattern.rule.vars, v.name = name ∧ value = Route.absentValue v) ∧
      ∀ name, m.params.get? name =
        ((values.get? name).filter (!Route.isAbsent ·)).or
          ((queried (m.above ++ [m.route]) query given name).or
            ((m.route.defaults.get? name).or (values.get? name))) := by
  obtain ⟨p, hp, found, hfound, hmatched⟩ := place_of_matchPath h
  cases hvalues : p.route.values found with
  | error e => rw [Selection.matched, hvalues] at hmatched; cases hmatched
  | ok values =>
    rw [Selection.matched, hvalues] at hmatched
    rw [← Except.ok.inj hmatched]
    refine ⟨⟨p, hp, rfl, rfl⟩, found, values, hfound, hvalues, Route.isSome_get?_values hvalues,
      fun name value => Route.absent_of_values hvalues, fun name => ?_⟩
    rw [Route.get?_mergeParams _ (Route.nodup_keys_values hvalues) (nodup_keys_queryParams _ query hgiven),
      get?_queryParams]

/-- The path `post/7` against the routes `post?{q}` and, below it, `{i:\d}[/{t:\d}]`, with defaults for `t` and `p`. The
query has a value for `p`, but no route declares it, and `t` is absent from the path. -/
theorem default_stands_for_undeclared_and_absent :
    ∃ (t : Tree) (m : Matched) (query given : Mapping Value),
      query = ⟨[(['q'], .str ['x']), (['p'], .str ['2'])]⟩ ∧ given = ⟨[(['l'], .str ['d'])]⟩ ∧ given.keys.Nodup ∧
      (t.root.matchPath "post/7".toList query given).outcome = .ok (some m) ∧
      m.params = ⟨[(['t'], .str "all".toList), (['p'], .str ['1']), (['l'], .str ['d']), (['q'], .str ['x']),
        (['i'], .str ['7'])]⟩ ∧
      ∃ found values, m.route.pattern.whole.matchWhole "post/7".toList = some found ∧
        m.route.values found = .ok values ∧ ∀ name, m.params.get? name =
          ((values.get? name).filter (!Route.isAbsent ·)).or
            ((queried (m.above ++ [m.route]) query given name).or
              ((m.route.defaults.get? name).or (values.get? name))) := by
  let defaults : Mapping Value := ⟨[(['t'], .str "all".toList), (['p'], .str ['1'])]⟩
  let below : RouteSpec := { pattern := "\x7bi:\\d\x7d[/\x7bt:\\d\x7d]".toList, defaults }
  have hrun : (Tree.ofRoutes ['/'] [(.dotted ['a'], { pattern := "post?\x7bq\x7d".toList }),
      (.dotted "a.b".toList, below)]).Gives fun t =>
        (t.root.matchPath "post/7".toList ⟨[(['q'], .str ['x']), (['p'], .str ['2'])]⟩
        ⟨[(['l'], .str ['d'])]⟩).Gives fun found => found.elim False fun m =>
          m.params = ⟨[(['t'], .str "all".toList), (['p'], .str ['1']), (['l'], .str ['d']), (['q'], .str ['x']),
            (['i'], .str ['7'])]⟩ := by
    cbv
  obtain ⟨t, -, hmatch⟩ := Traced.exists_of_gives hrun
  obtain ⟨_ | m, hm, hparams⟩ := Traced.exists_of_gives hmatch
  · exact hparams.elim
  have hgiven : (Mapping.mk [(['l'], Value.str ['d'])]).keys.Nodup := by decide
  obtain ⟨-, found, values, hfound, hvalues, -, -, hall⟩ := params_of_matchPath hgiven hm
  exact ⟨t, m, _, _, rfl, rfl, hgiven, hm, hparams, found, values, hfound, hvalues, hall⟩

end Branch

end Routing
