import Mathlib.Data.List.Infix
import Routing.Proofs.Tree.Selection
import Routing.Proofs.Tree.View

/-!
# Addresses

The address of a route is the segments that lead to it. Where no two branches below a route have the same segment
(`Apart`), walking through a branch comes to the routes of all its addresses, each once (`map_routeAt_addressesOf`,
`mem_addressesOf`): a route after those above it (`addressesOf_pairwise`), and the routes right below one in the order
of their segments (`filter_addressesOf`).
-/

namespace Routing

namespace Branch

/-- The route that some segments lead to. -/
def routeAt (b : Branch) : List Text → Option Route
  | [] => some b.route
  | segment :: rest => (named segment b.children).bind fun child => child.routeAt rest

/-- The segments that lead to the routes of some branches, in the order of the routes. -/
def addressesOf : List Branch → List (List Text)
  | [] => []
  | node route children :: rest => ([] :: addressesOf children).map (route.segment :: ·) ++ addressesOf rest

/-- Whether the segments of the branches below each route are different. -/
def Apart : List Branch → Prop
  | [] => True
  | node route children :: rest => route.segment ∉ segments rest ∧ Apart children ∧ Apart rest

theorem map_route_fetch (above : List Route) (b : Branch) (names : List Text) :
    (b.fetch above names).toOption.map Place.route = b.routeAt names := by
  induction names generalizing b above with
  | nil => rfl
  | cons segment rest ih =>
    rw [fetch, routeAt]
    cases named segment b.children with
    | none => rfl
    | some child => exact ih _ _

theorem isSome_routeAt (b : Branch) (names : List Text) : (b.routeAt names).isSome = (b.view names).isSome := by
  induction names generalizing b with
  | nil => rfl
  | cons segment rest ih =>
    rw [routeAt, view]
    cases named segment b.children with
    | none => rfl
    | some child => simp [ih]

/-- The lineage of a route is the routes at the beginnings of its address. -/
theorem lineage_of_view {b : Branch} {names : List Text} {v : Lineage × List Text} (h : b.view names = some v) :
    v.1.map some = names.inits.map b.routeAt := by
  induction names generalizing b v with
  | nil =>
    rw [view, Option.some.injEq] at h
    rw [← h]
    rfl
  | cons segment rest ih =>
    rw [view] at h
    cases hnamed : named segment b.children with
    | none => rw [hnamed] at h; cases h
    | some child =>
      rw [hnamed, Option.bind_some, Option.map_eq_some_iff] at h
      obtain ⟨v', hv', rfl⟩ := h
      have hbelow : b.routeAt ∘ (segment :: ·) = child.routeAt := by
        funext m
        simp [routeAt, hnamed]
      rw [List.inits_cons, List.map_cons, List.map_cons, List.map_map, hbelow, ← ih hv']
      rfl

/-! ### Branches whose segments are different -/

section Node

variable {above route : Route} {children rest : List Branch} {segment : Text} {names : List Text}

theorem named_eq_none_iff {branches : List Branch} :
    named segment branches = none ↔ segment ∉ segments branches := by
  simp [named, segments]

/-- What is seen through the first branch. -/
theorem routeAt_first :
    (node above (node route children :: rest)).routeAt (route.segment :: names) =
      (node route children).routeAt names := by
  rw [routeAt, Branch.children, named_cons]
  simp [Branch.route]

/-- What is seen past the first branch. -/
theorem routeAt_rest (h : route.segment ≠ segment) :
    (node above (node route children :: rest)).routeAt (segment :: names) =
      (node above rest).routeAt (segment :: names) := by
  rw [routeAt, routeAt, Branch.children, Branch.children, named_cons]
  simp [Branch.route, h]

end Node

/-- If all segments below each route that can be seen are different, they are below every route. -/
theorem apart_of_view (above : Route) {branches : List Branch}
    (h : ∀ names v, (node above branches).view names = some v → v.2.Nodup) : Apart branches := by
  induction branches using branches_induction generalizing above with
  | nil => simp [Apart]
  | cons route children rest ihc ih =>
    have hnodup : (route.segment :: segments rest).Nodup := h [] _ rfl
    rw [List.nodup_cons] at hnodup
    rw [Apart]
    refine ⟨hnodup.1, ihc route fun names v hv => ?_, ih above fun names v hv => ?_⟩
    · refine h (route.segment :: names) (above :: v.1, v.2) ?_
      rw [view, Branch.children, named_cons]
      simp [Branch.route, hv]
    · cases names with
      | nil =>
        rw [view_node_nil, Option.some.injEq] at hv
        rw [← hv]
        exact hnodup.2
      | cons segment names =>
        refine h (segment :: names) v ?_
        rw [view] at hv ⊢
        rw [Branch.children, named_cons, if_neg ?_]
        · exact hv
        · rintro rfl
          rw [Branch.children, Branch.route, named_eq_none_iff.mpr hnodup.1] at hv
          cases hv

theorem head_mem_segments {branches : List Branch} {n : List Text} (h : n ∈ addressesOf branches) :
    ∃ segment ∈ segments branches, ∃ names, n = segment :: names := by
  induction branches using branches_induction with
  | nil => simp [addressesOf] at h
  | cons route children rest _ ih =>
    rw [addressesOf, List.mem_append, List.mem_map] at h
    rcases h with ⟨names, -, rfl⟩ | h
    · exact ⟨_, List.mem_cons_self, names, rfl⟩
    · obtain ⟨segment, hsegment, names, rfl⟩ := ih h
      exact ⟨segment, List.mem_cons_of_mem _ hsegment, names, rfl⟩

/-- Walking comes to the routes of the addresses. -/
theorem map_routeAt_addressesOf (above : Route) {branches : List Branch} (h : Apart branches) :
    (addressesOf branches).map (node above branches).routeAt = (routesOf branches).map some := by
  induction branches using branches_induction generalizing above with
  | nil => simp [addressesOf, routesOf]
  | cons route children rest ihc ih =>
    rw [Apart] at h
    have hfirst : (node above (node route children :: rest)).routeAt ∘ (route.segment :: ·) =
        (node route children).routeAt := funext fun names => routeAt_first
    have hrest : (addressesOf rest).map (node above (node route children :: rest)).routeAt =
        (addressesOf rest).map (node above rest).routeAt := by
      apply List.map_congr_left
      intro n hn
      obtain ⟨segment, hsegment, names, rfl⟩ := head_mem_segments hn
      exact routeAt_rest fun heq => h.1 (heq ▸ hsegment)
    rw [addressesOf, List.map_append, List.map_map, hfirst, List.map_cons, ihc route h.2.1, hrest, ih above h.2.2,
      routesOf, routes, List.map_append, List.map_cons]
    rfl

theorem mem_addressesOf (above : Route) {branches : List Branch} (h : Apart branches) {n : List Text} :
    n ∈ addressesOf branches ↔ n ≠ [] ∧ ((node above branches).routeAt n).isSome := by
  induction branches using branches_induction generalizing above n with
  | nil => cases n <;> simp [addressesOf, routeAt, Branch.children, named]
  | cons route children rest ihc ih =>
    rw [Apart] at h
    cases n with
    | nil =>
      simp only [ne_eq, not_true_eq_false, false_and, iff_false]
      intro hmem
      obtain ⟨_, _, _, hnil⟩ := head_mem_segments hmem
      cases hnil
    | cons segment names =>
      rw [addressesOf, List.mem_append, List.mem_map]
      by_cases hsegment : route.segment = segment
      · subst hsegment
        have hrest : route.segment :: names ∉ addressesOf rest := by
          intro hmem
          obtain ⟨s, hs, _, heq⟩ := head_mem_segments hmem
          exact h.1 ((List.cons.inj heq).1 ▸ hs)
        rw [routeAt_first]
        simp only [hrest, List.cons.injEq, true_and, exists_eq_right, List.mem_cons, or_false, ne_eq, reduceCtorEq,
          not_false_eq_true, ihc route h.2.1]
        cases names <;> simp [routeAt]
      · rw [routeAt_rest hsegment, ← ih above h.2.2]
        simp [hsegment]

/-- A route comes after those above it. -/
theorem addressesOf_pairwise {branches : List Branch} (h : Apart branches) :
    (addressesOf branches).Pairwise fun m n => ¬ n <+: m := by
  induction branches using branches_induction with
  | nil => simp [addressesOf]
  | cons route children rest ihc ih =>
    rw [Apart] at h
    rw [addressesOf, List.pairwise_append, List.pairwise_map, List.pairwise_cons]
    have hbelow := (ihc h.2.1).imp fun hnot (hpre : route.segment :: _ <+: route.segment :: _) =>
      hnot (List.cons_prefix_cons.mp hpre).2
    refine ⟨⟨fun n hn hpre => ?_, hbelow⟩, ih h.2.2, fun m hm n hn hpre => ?_⟩
    · obtain ⟨segment, -, names, rfl⟩ := head_mem_segments hn
      exact absurd (List.cons_prefix_cons.mp hpre).2 (by simp)
    · obtain ⟨names, -, rfl⟩ := List.mem_map.mp hm
      obtain ⟨segment, hsegment, names', rfl⟩ := head_mem_segments hn
      exact h.1 ((List.cons_prefix_cons.mp hpre).1 ▸ hsegment)

/-- The addresses right below a route are those of the segments below it, in their order. -/
theorem filter_addressesOf (above : Route) {branches : List Branch} (h : Apart branches) {n : List Text}
    {v : Lineage × List Text} (hv : (node above branches).view n = some v) :
    (addressesOf branches).filter (·.dropLast = n) = v.2.map (n ++ [·]) := by
  induction branches using branches_induction generalizing above n v with
  | nil =>
    cases n with
    | nil =>
      rw [view_node_nil, Option.some.injEq] at hv
      simp [addressesOf, ← hv, segments]
    | cons segment names => cases hv
  | cons route children rest ihc ih =>
    rw [Apart] at h
    rw [addressesOf, List.filter_append, List.filter_map]
    cases n with
    | nil =>
      rw [view_node_nil, Option.some.injEq] at hv
      have hnone : (addressesOf children).filter ((fun m => m.dropLast = []) ∘ (route.segment :: ·)) = [] := by
        rw [List.filter_eq_nil_iff]
        intro m hm
        obtain ⟨s, -, names, rfl⟩ := head_mem_segments hm
        simp
      rw [List.filter_cons_of_pos (by simp), hnone, ih above h.2.2 (view_node_nil above rest), ← hv]
      rfl
    | cons segment names =>
      have hhead : ∀ s (m : List Text), (s :: m).dropLast = segment :: names → s = segment := by
        intro s m h
        cases m with
        | nil => cases h
        | cons => exact (List.cons.inj h).1
      rw [List.filter_cons_of_neg (by simp)]
      rw [view, Branch.children, named_cons, Branch.route] at hv
      by_cases hsegment : route.segment = segment
      · subst hsegment
        rw [if_pos rfl, Option.bind_some, Option.map_eq_some_iff] at hv
        obtain ⟨v, hv, rfl⟩ := hv
        have hfirst : (addressesOf children).filter ((fun m => m.dropLast = route.segment :: names) ∘
            (route.segment :: ·)) = (addressesOf children).filter (·.dropLast = names) := by
          apply List.filter_congr
          intro m hm
          obtain ⟨s, -, _, rfl⟩ := head_mem_segments hm
          simp
        have hrest : (addressesOf rest).filter (·.dropLast = route.segment :: names) = [] := by
          rw [List.filter_eq_nil_iff]
          intro m hm heq
          obtain ⟨s, hs, _, rfl⟩ := head_mem_segments hm
          exact h.1 (hhead _ _ (of_decide_eq_true heq) ▸ hs)
        rw [hfirst, ihc route h.2.1 hv, hrest, List.append_nil, List.map_map]
        rfl
      · have hfirst : (addressesOf children).filter ((fun m => m.dropLast = segment :: names) ∘
            (route.segment :: ·)) = [] := by
          rw [List.filter_eq_nil_iff]
          intro m _ heq
          exact hsegment (hhead _ _ (of_decide_eq_true heq))
        rw [if_neg hsegment] at hv
        rw [hfirst, List.map_nil, List.nil_append]
        exact ih above h.2.2 (by rw [view]; exact hv)

end Branch

end Routing
