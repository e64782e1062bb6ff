import Routing.Proofs.Route.Steps
import Routing.Proofs.Router.Location
import Routing.Proofs.Router.Search
import Routing.Proofs.Tree.History
import Routing.Proofs.Tree.Precedence

/-!
# Routers with one route

A router that has one route got it by an addition below its root (`Holds.exists_root`). It finds the route by its name
(`link_eq`) and where the route matches the whole of a path (`Branch.select_below`); where it does not, there is only
the root to be found (`Branch.lineage_of_matchPath_none`). There is such a router for any pattern (`exists_holds`).
-/

namespace Routing

open Pattern

/-- Whether a route is one that trees start with. -/
structure Route.IsRoot (root : Route) : Prop where
  made : root.IsMade
  name : root.name = []
  path : root.pattern.path = []
  query : root.pattern.queryNames = []
  content : root.content = .empty

/-- A tree may start with any delimiter. -/
theorem exists_create {delimiter : Text} (h : delimiter ≠ []) : ∃ t, (Tree.create delimiter).outcome = .ok t ∧
    t.root.children = [] ∧ t.root.route.delimiter = delimiter := by
  have htokens : tokenize delimiter [] = .ok ⟨[], []⟩ := by
    simp [tokenize, Part.outline, Part.scan, Part.Open.pieces, partsTokens]
  have hassigned := @RoutePattern.assigned_of_steps delimiter [] h _ {} htokens rfl [] rfl []
  have hpattern := @RoutePattern.ofText_of_assigned _ _ [] hassigned rfl rfl
  exact ⟨_, Traced.bind_outcome_eq_ok.mpr ⟨_, hpattern, rfl⟩, rfl, rfl⟩

theorem isRoot_of_create {delimiter : Text} {t : Tree} (h : (Tree.create delimiter).outcome = .ok t) :
    t.root.route.IsRoot := by
  obtain ⟨pattern, hpattern, h⟩ := Traced.bind_outcome_eq_ok.mp h
  rw [Traced.outcome_pure, Except.ok.injEq] at h
  obtain ⟨-, hpath, hquery⟩ := RoutePattern.assign_eq_ok (RoutePattern.ofText_eq_ok hpattern)
  rw [← h]
  exact ⟨⟨[], hpattern⟩, rfl, hpath, hquery, rfl⟩

theorem Branch.name_of_child {id : Nat} {parent r : Route} {segment : Text} {spec : RouteSpec}
    (h : (child id parent segment spec).outcome = .ok r) (hparent : parent.name = []) : r.name = r.segment := by
  obtain ⟨pattern, -, hr⟩ := Traced.bind_outcome_eq_ok.mp h
  rw [Traced.outcome_pure, Except.ok.injEq] at hr
  rw [← hr, hparent]
  rfl

namespace Router

/-- Whether a router has one route and no others, and its base path has no question mark. It was created, and all that
was added to its tree since was added by name. -/
structure Holds (router : Router) (r : Route) : Prop where
  made : ∃ base delimiter first calls, (create router.settings base delimiter).outcome = .ok first ∧
    router.basePath = first.basePath ∧ router.tree = (first.tree.history calls).1
  mark : '?' ∉ router.basePath
  only : router.tree.root.children = [.node r []]

section Holds

variable {router : Router} {r : Route} (h : router.Holds r)

include h

theorem Holds.isBase : IsBase router.basePath := by
  obtain ⟨base, delimiter, first, -, hfirst, hbase, -⟩ := h.made
  obtain ⟨tree, -, hfirst⟩ := Traced.bind_outcome_eq_ok.mp hfirst
  rw [hbase, ← Except.ok.inj hfirst]
  exact isBase_normalizeBase _

/-- The route was added below the root under its segment. -/
theorem Holds.exists_root : ∃ root, router.tree.root = .node root [.node r []] ∧ root.IsRoot ∧
    ∃ id spec, (Branch.child id root r.segment spec).outcome = .ok r := by
  obtain ⟨base, delimiter, first, calls, hfirst, -, htree⟩ := h.made
  obtain ⟨start, hstart, hfirst⟩ := Traced.bind_outcome_eq_ok.mp hfirst
  rw [← Except.ok.inj hfirst] at htree
  have hroot : router.tree.root.route.IsRoot := by
    rw [htree, Tree.root_history]
    exact isRoot_of_create hstart
  have hnode : router.tree.root = .node router.tree.root.route [.node r []] := by
    rw [← h.only]
    cases router.tree.root
    rfl
  refine ⟨_, hnode, hroot, ?_⟩
  have hview : router.tree.root.view [r.segment] = some ([router.tree.root.route, r], []) := by
    rw [hnode]
    simp [Branch.view, Branch.children, Branch.route, Branch.named, Branch.segments]
  -- the addition on record that is seen there made the route
  obtain ⟨-, hrecorded⟩ := Tree.recorded_history hstart calls
  rw [← htree] at hrecorded
  obtain ⟨a, ha, hsegments⟩ := hrecorded.stands (List.cons_ne_nil _ _) hview
  obtain ⟨v, hv, init, segment, above, parent, made, hinit, hlineage, hmade⟩ := hrecorded.made ha
  rw [hsegments, hview, Option.some.injEq] at hv
  rw [← hv] at hlineage
  have hsegment : [] ++ [r.segment] = init ++ [segment] := hsegments.symm.trans hinit
  have hchain : [] ++ [router.tree.root.route, r] = above ++ [parent, made] := hlineage
  obtain ⟨-, hsegment⟩ := List.append_inj' hsegment rfl
  obtain ⟨-, hchain⟩ := List.append_inj' hchain rfl
  simp only [List.cons.injEq, and_true] at hsegment hchain
  obtain ⟨rfl, rfl⟩ := hchain
  exact ⟨a.id, a.spec, hsegment ▸ hmade⟩

theorem Holds.isMade : r.IsMade := by
  obtain ⟨root, -, -, id, spec, hchild⟩ := h.exists_root
  exact (Branch.child_continues hchild).isMade

end Holds

theorem split_dotted {segment : Text} (hne : segment ≠ []) (hdots : '.' ∉ segment) :
    (RouteName.dotted segment).split = .ok [segment] := by
  obtain ⟨c, rest, rfl⟩ := List.exists_cons_of_ne_nil hne
  rw [RouteName.split, Text.splitOn_of_not_mem hdots]

/-- There is a router for each pattern, with a route that has the pattern and all else that it is added with. -/
theorem exists_holds (settings : Settings) {base : Option Text} (hmark : '?' ∉ settings.base base) {delimiter : Text}
    (hdelimiter : delimiter ≠ []) {segment : Text} (hne : segment ≠ []) (hdots : '.' ∉ segment) {spec : RouteSpec}
    {p : RoutePattern} (hp : (RoutePattern.ofText delimiter (RoutePattern.extend {} spec.pattern)).outcome = .ok p) :
    ∃ (router : Router) (r : Route), router.settings = settings ∧ router.basePath = settings.base base ∧
      router.Holds r ∧ r.name = segment ∧ r.delimiter = delimiter ∧ r.pattern = p ∧ r.defaults = spec.defaults ∧
      r.content = spec.content := by
  obtain ⟨t, ht, hchildren, hroot⟩ := exists_create hdelimiter
  have hisRoot := isRoot_of_create ht
  let r : Route := {
    id := t.next
    segment, delimiter
    name := segment
    defaults := spec.defaults
    content := spec.content
    pattern := p }
  have hextend : t.root.route.pattern.extend spec.pattern = RoutePattern.extend {} spec.pattern := by
    simp [RoutePattern.extend, hisRoot.path]
  have hchild : (Branch.child t.next t.root.route segment spec).outcome = .ok r := by
    refine Traced.bind_outcome_eq_ok.mpr ⟨p, by rw [hroot, hextend, hp], ?_⟩
    rw [hroot, hisRoot.name]
    rfl
  -- the root has nothing below it yet, so the route is made there
  have hattach : (Branch.attach t.next spec t.root [segment]).outcome =
      .ok (.node t.root.route [.node r []]) := by
    have hnone : Branch.named segment t.root.children = none := by rw [hchildren]; rfl
    rw [Branch.attach, hnone]
    refine Traced.bind_outcome_eq_ok.mpr ⟨r, hchild, Traced.bind_outcome_eq_ok.mpr ⟨(), rfl, ?_⟩⟩
    rw [hchildren]
    rfl
  have hadd : (t.add (.dotted segment) spec).outcome = .ok ⟨.node t.root.route [.node r []], t.next + 1⟩ := by
    refine Traced.bind_outcome_eq_ok.mpr ⟨[segment], split_dotted hne hdots, ?_⟩
    exact Traced.bind_outcome_eq_ok.mpr ⟨_, hattach, rfl⟩
  have hhistory : (t.history [(.dotted segment, spec)]).1 = ⟨.node t.root.route [.node r []], t.next + 1⟩ := by
    rcases Tree.call_cases t [] (.dotted segment) spec with ⟨names, u, -, hu, hcall⟩ | ⟨e, he, -⟩
    · rw [hadd, Except.ok.injEq] at hu
      rw [Tree.history, List.foldl_cons, hcall, hu]
      rfl
    · rw [hadd] at he
      cases he
  have hcreate : (create settings base (some delimiter)).outcome =
      .ok { settings, basePath := settings.base base, tree := t } := by
    obtain ⟨c, rest, rfl⟩ := List.exists_cons_of_ne_nil hdelimiter
    exact Traced.bind_outcome_eq_ok.mpr ⟨t, ht, rfl⟩
  refine ⟨{ settings, basePath := settings.base base, tree := ⟨.node t.root.route [.node r []], t.next + 1⟩ }, r, rfl,
    rfl, ⟨⟨base, some delimiter, _, _, hcreate, rfl, hhistory.symm⟩, hmark, rfl⟩, rfl, rfl, rfl, rfl, rfl⟩

/-- There is a router for each row of steps with a slash between any two variables. -/
theorem exists_holds_of_steps (settings : Settings) {base : Option Text} (hmark : '?' ∉ settings.base base)
    {delimiter : Text} (hdelimiter : delimiter ≠ []) {segment : Text} (hne : segment ≠ []) (hdots : '.' ∉ segment)
    {spec : RouteSpec} {path : Text} {names : List Text} {t : Tokenized} {rule : Rule} {steps : List Step}
    (hsplit : splitSuffix (RoutePattern.extend {} spec.pattern) = (path, names)) (hhead : path.head? ≠ some '/')
    (ht : tokenize delimiter path = .ok t) (hrule : t.rule = .ok rule) (htokens : t.tokens = tokensOf delimiter steps)
    (hspaced : Spaced true (tokensOf ['/'] steps)) :
    ∃ (router : Router) (r : Route), router.settings = settings ∧ router.basePath = settings.base base ∧
      router.Holds r ∧ r.name = segment ∧ r.delimiter = delimiter ∧ r.HasSteps steps ∧ r.pattern.path = path ∧
      r.pattern.queryNames = names ∧ r.defaults = spec.defaults ∧ r.content = spec.content := by
  have hassigned := RoutePattern.assigned_of_steps hdelimiter ht hrule htokens names
  have hp := @RoutePattern.ofText_of_assigned _ _ (RoutePattern.extend {} spec.pattern) hassigned
    (by rw [hsplit, dropLeading_of_head_ne hhead]) (by rw [hsplit])
  obtain ⟨router, r, hsettings, hbase, hholds, hname, hr, hpattern, hdefaults, hcontent⟩ :=
    exists_holds settings hmark hdelimiter hne hdots hp
  refine ⟨router, r, hsettings, hbase, hholds, hname, hr, ⟨hr ▸ hdelimiter, ?_, hspaced⟩, ?_, ?_, hdefaults, hcontent⟩
  · rw [hpattern, hr]
    exact htokens
  · rw [hpattern]
  · rw [hpattern]

/-! ### The route by its name -/

/-- Whether a route is found by its name, and is not left for another one. Names with dots lead further down, and those
that look like a URL are not looked up. -/
structure IsTarget (r : Route) : Prop where
  name : r.name ≠ []
  dots : '.' ∉ r.name
  relative : isAbsolute r.name = false
  stays : redirectTarget r = .ok none

/-- A route without content is not left for another one. -/
theorem redirectTarget_of_content_empty {r : Route} (h : r.content = .empty) : redirectTarget r = .ok none := by
  rw [redirectTarget, h]
  rfl

theorem follow_of_stays {r : Route} (h : redirectTarget r = .ok none) (tree : Tree) (lineage : Lineage) :
    follow tree r lineage = .ok lineage := by
  rw [follow, followFrom, h]
  rfl

/-- The link to a route by its name is the one to its path with its query variables. -/
theorem link_eq {router : Router} {root r : Route} (htree : router.tree.root = .node root [.node r []])
    (hsegment : r.name = r.segment) (hr : IsTarget r) (params : Mapping Value) :
    router.link (.dotted r.name) params none {} =
      r.link router.settings params (router.linkOptions {}) (some (.mapping (r.pickQuery params))) := by
  have hsplit := split_dotted hr.name hr.dots
  have hnamed : Branch.named r.name [.node r []] = some (.node r []) := by
    simp [Branch.named, Branch.route, hsegment]
  have hfetch : router.tree.root.fetch [] [r.name] = .ok ⟨[root], .node r []⟩ := by
    rw [htree, Branch.fetch, Branch.children, hnamed]
    rfl
  have hplace : router.tree.fetch (.dotted r.name) = .ok ⟨[root], .node r []⟩ := by
    rw [Tree.fetch, hsplit]
    exact hfetch
  have hresolve : router.resolveName (.dotted r.name) = .ok (.dotted r.name) := by
    rw [resolveName, if_neg]
    intro hdot
    exact hr.dots (RouteName.dotted.inj hdot ▸ List.mem_singleton_self '.')
  have hpicked : router.chainQuery (.dotted r.name) params = .ok (r.pickQuery params) := by
    rw [chainQuery, hsplit]
    simp only [bind, Except.bind, hfetch]
    exact congrArg Except.ok (Mapping.putAll_empty (Mapping.nodup_keys_ofList _))
  have hfollow : follow router.tree r [root, r] = .ok [root, r] := follow_of_stays hr.stays _ _
  rw [link, hr.relative, if_neg Bool.false_ne_true, linkTo, hresolve]
  simp only [bind, Except.bind, hplace]
  rw [Place.route, Place.lineage, Place.route, Branch.route, List.singleton_append, hfollow]
  simp only [List.getLast?_cons_cons, List.getLast?_singleton, Option.getD_some, hpicked]

end Router

/-! ### The route by its path -/

/-- A branch with one route below a root selects the route if it matches the path. -/
theorem Branch.select_below {root r : Route} (hroot : root.IsRoot) (hr : r.IsMade) (hdelimiter : root.delimiter ≠ [])
    {steps : List Step} (hsteps : r.HasSteps steps) {path : Text} {found : Regex.Cursor}
    (hfound : r.pattern.whole.matchWhole path = some found) :
    (node root [node r []]).select path = .ok (some ⟨[root], r, found⟩) := by
  have hempty : root.HasSteps [] := ⟨hdelimiter, Route.tokens_of_path_nil hroot.made hroot.path, .nil⟩
  have hregular : ∀ {route : Route} {steps : List Step}, route.IsMade → route.HasSteps steps →
      route.pattern.entry.IsRegular := by
    intro route steps hmade hsteps
    rw [hsteps.entry_eq hmade]
    exact isRegular_stepExpr _ _ _
  have hwhole : r.pattern.whole.hasPossessive = false := by
    rw [hr.assigned.whole_eq]
    exact Regex.hasPossessive_of_isRegular ⟨hregular hr hsteps, trivial, trivial⟩
  have hselect := select_leaf hr (Regex.hasPossessive_of_isRegular (hregular hr hsteps)) hwhole hfound
  obtain ⟨start, hstart⟩ := Option.isSome_iff_exists.mp (Route.starts_of_path_nil hroot.made hroot.path path)
  -- the pattern of the root starts any path, so the search goes on below it
  have hsound := Regex.sound_matchStart (Regex.hasPossessive_of_isRegular (hregular hroot.made hempty)) path
  rw [hstart] at hsound
  rw [select_of_starts (by rw [hstart]; exact hsound), selectAmong, hselect]
  rfl

/-- A route that does not match the whole path is not found, so that only the root is left. -/
theorem Branch.lineage_of_matchPath_none {root r : Route} {path : Text}
    (hnone : r.pattern.whole.matchWhole path = none) {query : Mapping Value} {m : Branch.Matched}
    (hm : ((node root [node r []]).matchPath path query .empty).outcome = .ok (some m)) :
    m.above ++ [m.route] = [root] := by
  obtain ⟨p, hp, found, hfound, hmatched⟩ := place_of_matchPath hm
  have hlineage : m.above ++ [m.route] = p.lineage := Selection.lineage_of_matched hmatched
  simp only [postOrder, placesAmong, List.nil_append, List.mem_cons, List.not_mem_nil, or_false,
    List.singleton_append] at hp
  rcases hp with rfl | rfl
  · rw [Place.route, Branch.route, hnone] at hfound
    cases hfound
  · exact hlineage

end Routing
