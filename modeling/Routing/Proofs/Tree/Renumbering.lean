import Mathlib.Logic.Equiv.Basic
import Routing.Proofs.Tree.Addresses
import Routing.Proofs.Tree.Naming

/-!
# Other numbers

The numbers of routes only tell them from each other. With other numbers a branch has the same segments, names and
patterns, and what is fetched or matched in it is the same but for the numbers (`fetch_renumber`,
`outcome_matchPath_renumber`). Two branches that look the same but for the numbers, and give each route a number of its
own, are made of each other by renumbering (`exists_renumber`).
-/

namespace Routing

/-- The route with another number. -/
def Route.renumber (σ : Nat → Nat) (r : Route) : Route := { r with id := σ r.id }

/-- The route without its number. -/
def Route.unnumbered (r : Route) : Route := r.renumber fun _ => 0

namespace Branch

mutual

/-- The branch with other numbers. -/
def renumber (σ : Nat → Nat) : Branch → Branch
  | node route children => node (route.renumber σ) (renumberAll σ children)

/-- Some branches with other numbers. -/
def renumberAll (σ : Nat → Nat) : List Branch → List Branch
  | [] => []
  | b :: rest => b.renumber σ :: renumberAll σ rest

end

variable (σ : Nat → Nat)

theorem renumberAll_eq (branches : List Branch) : renumberAll σ branches = branches.map (renumber σ) := by
  induction branches with
  | nil => rfl
  | cons b rest ih => rw [renumberAll, ih, List.map_cons]

theorem renumber_node (route : Route) (children : List Branch) :
    (node route children).renumber σ = node (route.renumber σ) (children.map (renumber σ)) := by
  rw [renumber, renumberAll_eq]

theorem route_renumber (b : Branch) : (b.renumber σ).route = b.route.renumber σ := by
  cases b
  rfl

theorem children_renumber (b : Branch) : (b.renumber σ).children = b.children.map (renumber σ) := by
  cases b
  rw [renumber_node]
  rfl

theorem segments_renumber (branches : List Branch) : segments (branches.map (renumber σ)) = segments branches := by
  rw [segments, segments, List.map_map]
  apply List.map_congr_left
  intro b _
  rw [Function.comp_apply, route_renumber]
  rfl

theorem named_renumber (segment : Text) (branches : List Branch) :
    named segment (branches.map (renumber σ)) = (named segment branches).map (renumber σ) := by
  induction branches with
  | nil => rfl
  | cons b rest ih =>
    rw [List.map_cons, named_cons, named_cons, ih, route_renumber]
    show (if b.route.segment = segment then _ else _) = _
    split <;> rfl

theorem routesOf_renumber (branches : List Branch) :
    routesOf (branches.map (renumber σ)) = (routesOf branches).map (Route.renumber σ) := by
  induction branches using branches_induction with
  | nil => rfl
  | cons route children rest ihc ih =>
    rw [List.map_cons, renumber_node, routesOf, routesOf, routes, routes, ihc, ih, List.map_append, List.map_cons]

theorem routes_renumber (b : Branch) : (b.renumber σ).routes = b.routes.map (Route.renumber σ) := by
  rw [routes_eq, routes_eq b, route_renumber, children_renumber, routesOf_renumber, List.map_cons]

/-- What segments lead to is the same but for the numbers. -/
theorem view_renumber (b : Branch) (names : List Text) :
    (b.renumber σ).view names = (b.view names).map fun v => (v.1.map (Route.renumber σ), v.2) := by
  induction names generalizing b with
  | nil =>
    rw [view_nil, view_nil, route_renumber, children_renumber, segments_renumber]
    rfl
  | cons segment rest ih =>
    rw [view, view, children_renumber, named_renumber, route_renumber]
    cases named segment b.children with
    | none => rfl
    | some child =>
      rw [Option.map_some, Option.bind_some, Option.bind_some, ih, Option.map_map, Option.map_map]
      rfl

end Branch

/-- The place with other numbers. -/
def Place.renumber (σ : Nat → Nat) (p : Place) : Place := ⟨p.above.map (Route.renumber σ), p.branch.renumber σ⟩

theorem Place.route_renumber (σ : Nat → Nat) (p : Place) : (p.renumber σ).route = p.route.renumber σ :=
  Branch.route_renumber σ p.branch

theorem Place.lineage_renumber (σ : Nat → Nat) (p : Place) :
    (p.renumber σ).lineage = p.lineage.map (Route.renumber σ) := by
  rw [lineage, lineage, route_renumber, List.map_append]
  rfl

namespace Branch

variable (σ : Nat → Nat)

/-- The same is fetched but for the numbers. -/
theorem fetch_renumber (above : List Route) (b : Branch) (names : List Text) :
    (b.renumber σ).fetch (above.map (Route.renumber σ)) names = (b.fetch above names).map (Place.renumber σ) := by
  induction names generalizing above b with
  | nil => rfl
  | cons segment rest ih =>
    rw [fetch, fetch, children_renumber, named_renumber, route_renumber]
    cases named segment b.children with
    | none => rfl
    | some child =>
      have hbelow := ih (above ++ [b.route]) child
      rw [List.map_append] at hbelow
      exact hbelow

/-- The selection with other numbers. -/
def Selection.renumber (s : Selection) : Selection :=
  ⟨s.above.map (Route.renumber σ), s.route.renumber σ, s.found⟩

/-- The match with other numbers. -/
def Matched.renumber (m : Matched) : Matched := ⟨m.above.map (Route.renumber σ), m.route.renumber σ, m.params⟩

theorem selectAmong_renumber (path : Text) (branches : List Branch) :
    selectAmong path (branches.map (renumber σ)) =
      (selectAmong path branches).map (Option.map (Selection.renumber σ)) := by
  induction branches using branches_induction with
  | nil => rfl
  | cons route children rest ihc ih =>
    have hpattern : (route.renumber σ).pattern = route.pattern := rfl
    rw [List.map_cons, renumber_node, selectAmong, selectAmong, select, select, ihc, ih, hpattern]
    -- the stages of a search, one after the other: each one fails, or ends the search, or goes on to the next
    cases sound route.pattern.entry (route.pattern.entry.matchStart path) with
    | error e => rfl
    | ok start =>
      cases start with
      | none => rfl
      | some _ =>
        cases selectAmong path children with
        | error e => rfl
        | ok below =>
          cases below with
          | some s => rfl
          | none =>
            cases sound route.pattern.whole (route.pattern.whole.matchWhole path) with
            | error e => rfl
            | ok found => cases found <;> rfl

theorem select_renumber (path : Text) (b : Branch) :
    (b.renumber σ).select path = (b.select path).map (Option.map (Selection.renumber σ)) := by
  rw [← selectAmong_singleton, ← selectAmong_singleton path b, ← selectAmong_renumber, List.map_singleton]

theorem queryParams_renumber (s : Selection) (query given : Mapping Value) :
    (s.renumber σ).queryParams query given = s.queryParams query given := by
  have hchain : (s.renumber σ).above ++ [(s.renumber σ).route] = (s.above ++ [s.route]).map (Route.renumber σ) := by
    rw [List.map_append]
    rfl
  rw [Selection.queryParams, hchain, List.foldl_map]
  rfl

/-- The same is matched but for the numbers. -/
theorem outcome_matchPath_renumber (b : Branch) (path : Text) (query given : Mapping Value) :
    ((b.renumber σ).matchPath path query given).outcome =
      (b.matchPath path query given).outcome.map (Option.map (Matched.renumber σ)) := by
  have hselect := select_renumber σ path b
  cases hb : b.select path with
  | error e =>
    rw [hb] at hselect
    rw [outcome_matchPath_of_error hb, outcome_matchPath_of_error hselect]
    rfl
  | ok selected =>
    rw [hb] at hselect
    rw [outcome_matchPath_of_select hb, outcome_matchPath_of_select hselect]
    cases selected with
    | none => rfl
    | some s =>
      show ((s.renumber σ).matched query given).map some = ((s.matched query given).map some).map _
      rw [Selection.matched, Selection.matched, queryParams_renumber]
      show ((s.route.values s.found).map _).map some = _
      cases s.route.values s.found <;> rfl

/-! ### Branches that look the same but for the numbers -/

/-- The branch without numbers. -/
def unnumbered (b : Branch) : Branch := b.renumber fun _ => 0

theorem view_unnumbered (b : Branch) (names : List Text) :
    b.unnumbered.view names = (b.view names).map fun v => (v.1.map Route.unnumbered, v.2) :=
  view_renumber _ b names

theorem view_first (above route : Route) (children rest : List Branch) (names : List Text) :
    (node above (node route children :: rest)).view (route.segment :: names) =
      ((node route children).view names).map fun v => (above :: v.1, v.2) := by
  rw [view, Branch.children, named_cons, Branch.route, if_pos rfl, Option.bind_some]
  rfl

theorem view_rest {above route : Route} {children rest : List Branch} {segment : Text}
    (h : route.segment ≠ segment) (names : List Text) :
    (node above (node route children :: rest)).view (segment :: names) =
      (node above rest).view (segment :: names) := by
  rw [view, view, Branch.children, Branch.children, named_cons, Branch.route, if_neg h]
  rfl

/-- Branches whose segments are different are told by what is seen of them. -/
theorem eq_of_view {above : Route} {branches others : List Branch} (hbranches : Apart branches)
    (hothers : Apart others) (h : ∀ n, (node above branches).view n = (node above others).view n) :
    branches = others := by
  induction branches using branches_induction generalizing above others with
  | nil =>
    have hnil := h []
    rw [view_node_nil, view_node_nil, Option.some.injEq, Prod.mk.injEq] at hnil
    exact (List.map_eq_nil_iff.mp hnil.2.symm).symm
  | cons route children rest ihc ih =>
    have hnil := h []
    rw [view_node_nil, view_node_nil, Option.some.injEq, Prod.mk.injEq] at hnil
    cases others with
    | nil => cases hnil.2
    | cons other others =>
      obtain ⟨route', children'⟩ := other
      obtain ⟨hsegment, hsegments⟩ := List.cons.inj hnil.2
      replace hsegment : route.segment = route'.segment := hsegment
      replace hsegments : segments rest = segments others := hsegments
      rw [Apart] at hbranches hothers
      have hfirst : ∀ n, (node route children).view n = (node route' children').view n := by
        intro n
        have hn := h (route.segment :: n)
        rw [view_first, hsegment, view_first] at hn
        refine Option.map_injective ?_ hn
        intro v w hvw
        simpa [Prod.ext_iff] using hvw
      obtain rfl : route = route' := by
        have hroute := hfirst []
        rw [view_node_nil, view_node_nil] at hroute
        simpa using congrArg (Option.map Prod.fst) hroute
      have hrest : ∀ n, (node above rest).view n = (node above others).view n := by
        intro n
        cases n with
        | nil => rw [view_node_nil, view_node_nil, hsegments]
        | cons segment names =>
          by_cases hs : route.segment = segment
          · rw [← hs, view, view, Branch.children, Branch.children, named_eq_none_iff.mpr hbranches.1,
              named_eq_none_iff.mpr (hsegments ▸ hbranches.1)]
            rfl
          · rw [← view_rest hs, h, view_rest hs]
      rw [ihc hbranches.2.1 hothers.2.1 hfirst, ih hbranches.2.2 hothers.2.2 hrest]

theorem apart_renumber (σ : Nat → Nat) {branches : List Branch} :
    Apart (branches.map (renumber σ)) ↔ Apart branches := by
  induction branches using branches_induction with
  | nil => exact Iff.rfl
  | cons route children rest ihc ih =>
    rw [List.map_cons, renumber_node, Apart, Apart, segments_renumber, ihc, ih]
    exact Iff.rfl

/-- A branch is made of one that looks the same but for the numbers by any renumbering that takes the numbers of the
routes, in their order, to those of the other one. -/
theorem map_renumber_eq {σ : Nat → Nat} {branches others : List Branch}
    (h : branches.map unnumbered = others.map unnumbered)
    (hids : ((routesOf branches).map Route.id).map σ = (routesOf others).map Route.id) :
    branches.map (renumber σ) = others := by
  induction branches using branches_induction generalizing others with
  | nil => exact (List.map_eq_nil_iff.mp h.symm).symm
  | cons route children rest ihc ih =>
    cases others with
    | nil => cases h
    | cons other others =>
      obtain ⟨route', children'⟩ := other
      rw [List.map_cons, List.map_cons, List.cons.injEq, unnumbered, unnumbered, renumber_node, renumber_node,
        node.injEq] at h
      obtain ⟨⟨hroute, hchildren⟩, hrest⟩ := h
      have hlength : ∀ {bs cs : List Branch}, bs.map unnumbered = cs.map unnumbered →
          (routesOf bs).length = (routesOf cs).length := by
        intro bs cs hsame
        have hroutes := congrArg routesOf hsame
        have hmap : ∀ ds : List Branch, routesOf (ds.map unnumbered) = (routesOf ds).map (Route.renumber fun _ => 0) :=
          fun ds => routesOf_renumber _ ds
        rw [hmap, hmap] at hroutes
        simpa using congrArg List.length hroutes
      rw [routesOf, routesOf, routes, routes, List.map_append, List.map_append, List.map_append, List.map_cons,
        List.map_cons, List.map_cons, List.cons_append, List.cons_append, List.cons.injEq] at hids
      obtain ⟨hid, hids⟩ := hids
      obtain ⟨hbelow, hafter⟩ := List.append_inj hids (by simp [hlength hchildren])
      have hsame : route.renumber σ = route' := by
        have hfields : ({ route with id := 0 } : Route) = { route' with id := 0 } := hroute
        rw [Route.mk.injEq] at hfields
        rw [Route.renumber, hid]
        cases route
        cases route'
        simp_all
      rw [List.map_cons, renumber_node, hsame, ihc hchildren hbelow, ih hrest hafter]

theorem eq_of_forall_view {b c : Branch} (hb : Apart b.children) (hc : Apart c.children)
    (h : ∀ n, b.view n = c.view n) : b = c := by
  obtain ⟨above, branches⟩ := b
  obtain ⟨above', others⟩ := c
  obtain rfl : above = above' := by
    have hroute := h []
    rw [view_node_nil, view_node_nil] at hroute
    simpa using congrArg (Option.map Prod.fst) hroute
  have hsame : branches = others := eq_of_view hb hc h
  rw [hsame]

end Branch

/-- A list without repetitions is taken to another one of its length by a one-to-one renumbering. -/
theorem exists_perm_map_eq {l m : List Nat} (hl : l.Nodup) (hm : m.Nodup) (h : l.length = m.length) :
    ∃ σ : Equiv.Perm Nat, l.map σ = m := by
  induction l generalizing m with
  | nil =>
    rw [List.length_nil] at h
    exact ⟨Equiv.refl Nat, (List.length_eq_zero_iff.mp h.symm).symm⟩
  | cons a l ih =>
    cases m with
    | nil => cases h
    | cons b m =>
      rw [List.nodup_cons] at hl hm
      obtain ⟨σ, hσ⟩ := ih hl.2 hm.2 (Nat.succ.inj h)
      -- what `a` went to is put in the place of `b`, and nothing else of the list moves
      refine ⟨σ.trans (Equiv.swap (σ a) b), ?_⟩
      rw [List.map_cons, Equiv.trans_apply, Equiv.swap_apply_left]
      refine congrArg (b :: ·) ?_
      rw [← hσ]
      apply List.map_congr_left
      intro x hx
      rw [Equiv.trans_apply]
      apply Equiv.swap_apply_of_ne_of_ne
      · intro hsame
        exact hl.1 (σ.injective hsame ▸ hx)
      · intro hsame
        exact hm.1 (hσ ▸ hsame ▸ List.mem_map_of_mem hx)

namespace Branch

/-- Two branches that look the same but for the numbers, and give each route a number of its own, are made of each
other by renumbering. -/
theorem exists_renumber {b c : Branch} (hb : (b.routes.map Route.id).Nodup) (hc : (c.routes.map Route.id).Nodup)
    (h : b.unnumbered = c.unnumbered) : ∃ σ : Equiv.Perm Nat, b.renumber σ = c := by
  have hlength : (b.routes.map Route.id).length = (c.routes.map Route.id).length := by
    have hroutes := congrArg routes h
    rw [unnumbered, unnumbered, routes_renumber, routes_renumber] at hroutes
    simpa using congrArg List.length hroutes
  obtain ⟨σ, hσ⟩ := exists_perm_map_eq hb hc hlength
  refine ⟨σ, ?_⟩
  have hsingle : ∀ d : Branch, routesOf [d] = d.routes := by
    intro d
    rw [routesOf, routesOf, List.append_nil]
  have hall : [b].map (renumber σ) = [c] := by
    refine map_renumber_eq (by rw [List.map_singleton, List.map_singleton, h]) ?_
    rw [hsingle, hsingle, hσ]
  exact (List.cons.inj hall).1

end Branch

end Routing
