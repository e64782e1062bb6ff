import Routing.Proofs.Router.ChainQuery
import Routing.Proofs.Router.Moves
import Routing.Proofs.Router.Single

/-!
# Links to the current route

The name `.` stands for the current route, which is then looked up by its own name. In a tree that grows by dotted
names, even by such with empty segments, the name of every route below the root leads back to it
(`Dotted.exists_fetch`). So a link to `.` is the link that the current route writes (`link_current`). Only the root has
no name that leads to it: where it is the current route, there is no link to `.` (`root_is_not_linked`).
-/

namespace Routing

theorem join_ne_nil {n : List Text} (hn : n ≠ []) (hfirst : n.head? ≠ some []) : Text.join ['.'] n ≠ [] := by
  obtain ⟨s, rest, rfl⟩ := List.exists_cons_of_ne_nil hn
  have hs : s ≠ [] := by
    rintro rfl
    exact hfirst rfl
  by_cases hrest : rest = []
  · rwa [hrest, Text.join, List.intercalate_singleton]
  · rw [Text.join_cons s hrest]
    exact List.append_ne_nil_of_left_ne_nil hs _

theorem split_dotted_eq_ok {name : Text} {names : List Text} (h : (RouteName.dotted name).split = .ok names) :
    name ≠ [] ∧ names = Text.splitOn '.' name := by
  cases name with
  | nil => cases h
  | cons c rest => exact ⟨List.cons_ne_nil _ _, (Except.ok.inj h).symm⟩

namespace Tree

open Branch

/-- The trees that a root grows into when routes are added by dotted names. -/
inductive GrownByNames : Tree → Prop
  | create {delimiter t} (h : (create delimiter).outcome = .ok t) : GrownByNames t
  | add {t u name spec} (ht : GrownByNames t) (h : (t.add (.dotted name) spec).outcome = .ok u) : GrownByNames u

/-- Whether the routes of a tree have the segments that lead to them, with dots between them, as their names, no segment
has a dot, none that is empty is right below the root, and the segments below each route are different. -/
structure Dotted (t : Tree) : Prop where
  root : t.root.route.IsRoot
  first : ∀ {n v}, t.root.view n = some v → n.head? ≠ some []
  dots : ∀ {n v}, t.root.view n = some v → ∀ s ∈ n, '.' ∉ s
  name : ∀ {n v}, t.root.view n = some v → lineageName v.1 = Text.join ['.'] n
  nodup : ∀ {n v}, t.root.view n = some v → v.2.Nodup

theorem dotted_create {delimiter : Text} {t : Tree} (h : (create delimiter).outcome = .ok t) : t.Dotted := by
  have hroot := isRoot_of_create h
  constructor
  · exact hroot
  · intro n v hv
    rw [(view_of_create h hv).1]
    exact nofun
  · intro n v hv
    rw [(view_of_create h hv).1]
    exact nofun
  · intro n v hv
    rw [(view_of_create h hv).1, (view_of_create h hv).2]
    exact hroot.name
  · intro n v hv
    rw [(view_of_create h hv).2]
    exact List.nodup_nil

/-- A tree stays dotted when a route is added by a dotted name. An empty segment can only come after others, since no
route has an empty segment right below the root. -/
theorem Dotted.add {t u : Tree} {name : Text} {spec : RouteSpec} (ht : t.Dotted)
    (h : (t.add (.dotted name) spec).outcome = .ok u) : u.Dotted := by
  obtain ⟨names, hsplit, -⟩ := Traced.bind_outcome_eq_ok.mp h
  obtain ⟨hname, hnames⟩ := split_dotted_eq_ok hsplit
  obtain ⟨init, segment, above, parent, others, r, hinit, hparent, hr, -, -, hcases⟩ := view_of_add hsplit h
  have hfirst : names.head? ≠ some [] := by
    rw [hinit, List.head?_append]
    by_cases hnil : init = []
    · have hjoin : Text.join ['.'] names = name := by rw [hnames, Text.join_splitOn]
      rw [hinit, hnil, List.nil_append, Text.join, List.intercalate_singleton] at hjoin
      simp [hnil, hjoin, hname]
    · obtain ⟨s, rest, rfl⟩ := List.exists_cons_of_ne_nil hnil
      exact ht.first hparent
  constructor
  · rw [route_of_add h]
    exact ht.root
  · intro n v hv
    rcases hcases _ _ hv with ⟨rfl, -⟩ | ⟨-, w, hw, -⟩
    · exact hfirst
    · exact ht.first hw
  · intro n v hv
    rcases hcases _ _ hv with ⟨rfl, -⟩ | ⟨-, w, hw, -⟩
    · rw [hnames]
      exact fun s hs => Text.not_mem_of_mem_splitOn hs
    · exact ht.dots hw
  · intro n v hv
    rcases hcases _ _ hv with ⟨rfl, rfl⟩ | ⟨-, w, hw, rfl⟩
    · have hparentName : parent.name = Text.join ['.'] init := by simpa [lineageName] using ht.name hparent
      have hlast : lineageName (above ++ [parent, r]) = r.name := by simp [lineageName]
      rw [hlast, hinit]
      refine name_of_child_eq_join hr hparentName fun hnil => ?_
      rw [hparentName]
      exact join_ne_nil hnil (ht.first hparent)
    · show lineageName w.1 = _
      exact ht.name hw
  · intro n v hv
    rcases hcases _ _ hv with ⟨-, rfl⟩ | ⟨-, w, hw, rfl⟩
    · exact List.nodup_nil
    · dsimp only
      split
      · exact nodup_withSegment (ht.nodup hw)
      · exact ht.nodup hw

theorem dotted_of_grownByNames {t : Tree} (h : t.GrownByNames) : t.Dotted := by
  induction h with
  | create h => exact dotted_create h
  | add _ h ih => exact ih.add h

/-- The name of a route below the root leads to it. -/
theorem Dotted.exists_fetch {t : Tree} (ht : t.Dotted) {lineage : Lineage} (h : t.HasLineage lineage)
    (hbelow : lineage ≠ [t.root.route]) :
    ∃ p, t.fetch (.dotted (lineageName lineage)) = .ok p ∧ p.lineage = lineage := by
  obtain ⟨n, v, hv, rfl⟩ := h
  obtain ⟨p, hp, hlineage, -⟩ := view_eq_some_iff.mp hv
  have hn : n ≠ [] := by
    rintro rfl
    rw [view_nil, Option.some.injEq] at hv
    exact hbelow (by rw [← hv])
  refine ⟨p, ?_, hlineage⟩
  rw [ht.name hv, fetch_dotted (join_ne_nil hn (ht.first hv)), Text.splitOn_join hn (ht.dots hv), hp]

end Tree

namespace Router

open Branch

theorem chainQuery_eq_takenBy {r : Router} {name : RouteName} {p : Place} (hp : r.tree.fetch name = .ok p)
    (hroot : r.tree.root.route.pattern.queryNames = []) (params : Mapping Value) :
    r.chainQuery name params = .ok (takenBy p.lineage params) := by
  obtain ⟨names, hnames, hfetch⟩ := Pattern.bind_eq_ok.mp hp
  obtain ⟨rest, hlineage⟩ := exists_lineage_of_fetch hfetch
  refine Pattern.bind_eq_ok.mpr ⟨names, hnames, Pattern.bind_eq_ok.mpr ⟨p, hfetch, congrArg Except.ok ?_⟩⟩
  rw [hlineage, List.nil_append, takenBy_cons_of_nil hroot, takenBy]
  exact foldl_putAll_pickQuery rest params (Mapping.within_empty params)

/-- A link to `.` where the current route is found by its name and redirects no further. -/
theorem link_dot {r : Router} {p : Place} (hcurrent : r.current = some p.lineage)
    (hp : r.tree.fetch (.dotted (lineageName p.lineage)) = .ok p) (hstays : redirectTarget p.route = .ok none)
    (hroot : r.tree.root.route.pattern.queryNames = []) (params : Mapping Value) :
    r.link (.dotted ['.']) params none {} =
      p.route.link r.settings params { base := .path r.basePath } (some (.mapping (takenBy p.lineage params))) := by
  have hrelative : isAbsolute ['.'] = false := by decide
  have hresolve : r.resolveName (.dotted ['.']) = .ok (.dotted (lineageName p.lineage)) := by
    rw [resolveName, if_pos rfl, hcurrent]
  have hlast : p.lineage.getLast? = some p.route := List.getLast?_concat
  have hname : lineageName p.lineage = p.route.name := by
    rw [lineageName, hlast]
    rfl
  have hquery := chainQuery_eq_takenBy hp hroot params
  rw [hname] at hquery
  rw [link, hrelative, if_neg Bool.false_ne_true, linkTo, hresolve]
  simp only [bind, Except.bind, hp, follow_of_stays hstays, hlast, Option.getD_some, hquery]
  rfl

/-- There is no link to `.` where the current route has no name. -/
theorem link_dot_of_unnamed {r : Router} {lineage : Lineage} (hcurrent : r.current = some lineage)
    (hname : lineageName lineage = []) (params : Mapping Value) :
    r.link (.dotted ['.']) params none {} = .error .emptyName := by
  have hrelative : isAbsolute ['.'] = false := by decide
  have hresolve : r.resolveName (.dotted ['.']) = .ok (.dotted []) := by
    rw [resolveName, if_pos rfl, hcurrent, ← hname]
  rw [link, hrelative, if_neg Bool.false_ne_true, linkTo, hresolve]
  rfl

/-- After a transition that was found is committed, the current route redirects no further. If it is the root, no link
to `.` is written, since the root has no name. Any other current route is found by its name, so that the link to `.` is
the one that the route itself writes, with the base path of the router and the query variables of its chain. -/
theorem link_current {r : Router} (hr : r.tree.GrownByNames) {location : Text} {t : Transition}
    (ht : (r.matchLocation location).outcome = .ok (some t)) :
    ∃ route, t.target.getLast? = some route ∧ redirectTarget route = .ok none ∧
      (t.target = [r.tree.root.route] → ∀ params,
        (r.commit t).link (.dotted ['.']) params none {} = .error .emptyName) ∧
      (t.target ≠ [r.tree.root.route] → ∀ params,
        (r.commit t).link (.dotted ['.']) params none {} = route.link r.settings params { base := .path r.basePath }
          (some (.mapping (takenBy t.target params)))) := by
  have hdotted := Tree.dotted_of_grownByNames hr
  obtain ⟨m, hm, htarget, -⟩ := matchLocation_eq_ok.mp ht
  have hlineage := hasLineage_of_followFrom htarget
    (Tree.hasLineage_of_matchPath (Tree.apart_children fun hv => hdotted.nodup hv) hm)
  obtain ⟨route, hlast, hstays⟩ : ∃ route, t.target.getLast? = some route ∧ redirectTarget route = .ok none := by
    rcases end_of_followFrom htarget with ⟨hstays, heq⟩ | ⟨name, p, -, hstays, heq⟩
    · exact ⟨m.route, heq ▸ List.getLast?_concat, hstays⟩
    · exact ⟨p.route, heq ▸ List.getLast?_concat, hstays⟩
  refine ⟨route, hlast, hstays, fun hroot params => ?_, fun hbelow params => ?_⟩
  · refine link_dot_of_unnamed (congrArg some hroot) ?_ params
    exact hdotted.root.name
  · obtain ⟨p, hp, hsame⟩ := hdotted.exists_fetch hlineage hbelow
    obtain rfl : p.route = route := by
      rw [← hsame, Place.lineage, List.getLast?_concat] at hlast
      exact Option.some.inj hlast
    rw [← hsame] at hp ⊢
    exact link_dot (r := r.commit t) (congrArg some hsame.symm) hp hstays hdotted.root.query params

/-- The route `a..b`, with an empty segment in its name, is the current one. The link to `.` with other parameters is its
own link, with the query variable of the route above it. -/
theorem empty_segment_is_linked : ∃ (r : Router) (t : Transition) (route : Route) (params : Mapping Value),
    r.tree.GrownByNames ∧ (r.matchLocation "/x/y/7".toList).outcome = .ok (some t) ∧ t.target ≠ [r.tree.root.route] ∧
    t.target.getLast? = some route ∧ route.name = "a..b".toList ∧
    params = ⟨[(['q'], .str ['z']), (['i'], .str ['8'])]⟩ ∧
    route.link r.settings params { base := .path r.basePath } (some (.mapping (takenBy t.target params))) =
      .ok "/x/y/8?q=z".toList ∧
    (r.commit t).link (.dotted ['.']) params none {} = .ok "/x/y/8?q=z".toList := by
  let params : Mapping Value := ⟨[(['q'], .str ['z']), (['i'], .str ['8'])]⟩
  have hrun : (Tree.create ['/']).Gives fun t₀ =>
      (t₀.add (.dotted "a".toList) { pattern := "x".toList }).Gives fun t₁ =>
      (t₁.add (.dotted "a.".toList) { pattern := "y?\x7bq\x7d".toList }).Gives fun t₂ =>
      (t₂.add (.dotted "a..b".toList) { pattern := "\x7bi:\\d\x7d".toList }).Gives fun tree =>
      (Router.matchLocation ⟨{}, [], tree, none, .empty⟩ "/x/y/7".toList).Gives fun found =>
      found.elim False fun t => t.target.getLast?.elim False fun route =>
        t.target.length = 4 ∧ route.name = "a..b".toList ∧
        route.link {} params { base := .path [] } (some (.mapping (takenBy t.target params))) =
          .ok "/x/y/8?q=z".toList := by
    cbv
  obtain ⟨t₀, h₀, hrun⟩ := Traced.exists_of_gives hrun
  obtain ⟨t₁, h₁, hrun⟩ := Traced.exists_of_gives hrun
  obtain ⟨t₂, h₂, hrun⟩ := Traced.exists_of_gives hrun
  obtain ⟨tree, h₃, hrun⟩ := Traced.exists_of_gives hrun
  obtain ⟨_ | t, hfound, hrun⟩ := Traced.exists_of_gives hrun
  · exact hrun.elim
  have hgrown : tree.GrownByNames := (((Tree.GrownByNames.create h₀).add h₁).add h₂).add h₃
  obtain ⟨route, hlast, -, -, hlink⟩ := link_current (r := ⟨{}, [], tree, none, .empty⟩) hgrown hfound
  simp only [Option.elim_some, hlast] at hrun
  obtain ⟨hlength, hname, htext⟩ := hrun
  have hbelow : t.target ≠ [tree.root.route] := by
    intro hroot
    rw [hroot] at hlength
    cases hlength
  exact ⟨_, t, route, params, hgrown, hfound, hbelow, hlast, hname, rfl, htext, (hlink hbelow params).trans htext⟩

/-- A router without further routes finds its root at `/`. The root is the current route then and has the link `/`, but
there is no link to `.`. -/
theorem root_is_not_linked : ∃ (r : Router) (t : Transition) (root : Route), r.tree.GrownByNames ∧
    (r.matchLocation ['/']).outcome = .ok (some t) ∧ t.target.getLast? = some root ∧
    redirectTarget root = .ok none ∧
    root.link r.settings .empty { base := .path r.basePath } (some (.mapping (takenBy t.target .empty))) = .ok ['/'] ∧
    (r.commit t).link (.dotted ['.']) .empty none {} = .error .emptyName := by
  have hrun : (Tree.create ['/']).Gives fun tree =>
      (Router.matchLocation ⟨{}, [], tree, none, .empty⟩ ['/']).Gives fun found =>
      found.elim False fun t => t.target.getLast?.elim False fun root => root.name = [] ∧
        redirectTarget root = .ok none ∧
        root.link {} .empty { base := .path [] } (some (.mapping (takenBy t.target .empty))) = .ok ['/'] := by
    cbv
  obtain ⟨tree, htree, hrun⟩ := Traced.exists_of_gives hrun
  obtain ⟨_ | t, hfound, hrun⟩ := Traced.exists_of_gives hrun
  · exact hrun.elim
  cases hlast : t.target.getLast? with
  | none =>
    rw [Option.elim_some, hlast] at hrun
    exact hrun.elim
  | some root =>
    rw [Option.elim_some, hlast] at hrun
    obtain ⟨hname, hstays, htext⟩ := hrun
    have hunnamed : lineageName t.target = [] := by
      rw [lineageName, hlast]
      exact hname
    exact ⟨_, t, root, .create htree, hfound, hlast, hstays, htext, link_dot_of_unnamed rfl hunnamed .empty⟩

end Router

end Routing
