import Routing.Proofs.Tree.Addresses
import Routing.Transition

/-!
# Names

The name of a route is the segments that lead to it, with dots between them. Where no segment is empty or has a dot, as
in a tree that grows by dotted names without empty segments (`WellNamed`), a name tells the segments. So every route is
found by its own name, and no two have the same one (`fetch_name`, `nodup_names`), and a name is the beginning of
another one up to a dot if and only if it leads to a route on the way down to the other one (`exists_fetch_mem_iff`).
-/

namespace Routing

/-- Whether a text may stand between the dots of a name. -/
def IsSegment (t : Text) : Prop := t ≠ [] ∧ '.' ∉ t

section Segments

variable {n : List Text}

theorem splitOn_join_segments (hn : n ≠ []) (h : ∀ s ∈ n, IsSegment s) :
    Text.splitOn '.' (Text.join ['.'] n) = n :=
  Text.splitOn_join hn fun s hs => (h s hs).2

theorem join_segments_eq_nil_iff (h : ∀ s ∈ n, IsSegment s) : Text.join ['.'] n = [] ↔ n = [] := by
  constructor
  · intro hjoin
    by_contra hn
    have hsplit := splitOn_join_segments hn h
    rw [hjoin] at hsplit
    exact (h [] (hsplit ▸ List.mem_singleton.mpr rfl)).1 rfl
  · rintro rfl
    rfl

/-- Names tell their segments. -/
theorem join_segments_inj {m : List Text} (hm : ∀ s ∈ m, IsSegment s) (hn : ∀ s ∈ n, IsSegment s)
    (h : Text.join ['.'] m = Text.join ['.'] n) : m = n := by
  by_cases hnil : m = []
  · rw [hnil]
    exact ((join_segments_eq_nil_iff hn).mp (h ▸ hnil ▸ rfl)).symm
  · have hnil' : n ≠ [] := fun hn' => hnil ((join_segments_eq_nil_iff hm).mp (h.trans (hn' ▸ rfl)))
    rw [← splitOn_join_segments hnil hm, h, splitOn_join_segments hnil' hn]

theorem fetch_dotted {t : Tree} {name : Text} (h : name ≠ []) :
    t.fetch (.dotted name) = t.root.fetch [] (Text.splitOn '.' name) := by
  cases name with
  | nil => exact absurd rfl h
  | cons c rest => rfl

/-- A text is a name, or it comes before a dot in it, if and only if its segments are the first ones of the name. -/
theorem splitOn_prefix_iff {name : Text} (hname : name ≠ []) (h : ∀ s ∈ n, IsSegment s) :
    (name == Text.join ['.'] n || (name ++ ['.']).isPrefixOf (Text.join ['.'] n)) = true ↔
      Text.splitOn '.' name <+: n := by
  rw [Bool.or_eq_true, beq_iff_eq, List.isPrefixOf_iff_prefix]
  constructor
  · intro hjoin
    have hn : n ≠ [] := by
      rintro rfl
      rcases hjoin with heq | hpre
      · exact hname heq
      · exact absurd (List.prefix_nil.mp hpre) (by simp)
    rw [← splitOn_join_segments hn h]
    rcases hjoin with heq | ⟨more, hmore⟩
    · rw [heq]
    · rw [← hmore, List.append_assoc, List.singleton_append, Text.splitOn_append_cons]
      exact List.prefix_append _ _
  · rintro ⟨rest, rfl⟩
    by_cases hrest : rest = []
    · rw [hrest, List.append_nil, Text.join_splitOn]
      exact Or.inl rfl
    · rw [Text.join_append (Text.splitOn_ne_nil '.' name) hrest, Text.join_splitOn]
      exact Or.inr ⟨Text.join ['.'] rest, by rw [List.append_assoc, List.singleton_append]⟩

end Segments

namespace Branch

/-- What a parent gets under a segment is made of its own name, pattern and delimiter, and nothing else of it. -/
theorem child_eq_ok_iff {id : Nat} {parent r : Route} {segment : Text} {spec : RouteSpec} :
    (child id parent segment spec).outcome = .ok r ↔ ∃ pattern,
      (RoutePattern.ofText parent.delimiter (parent.pattern.extend spec.pattern)).outcome = .ok pattern ∧
      r = { id, segment, pattern
            name := if parent.name.isEmpty then segment else parent.name ++ '.' :: segment
            defaults := spec.defaults
            content := spec.content
            delimiter := parent.delimiter } := by
  rw [child, Traced.bind_outcome_eq_ok]
  constructor
  · rintro ⟨pattern, hpattern, hr⟩
    rw [Traced.outcome_pure, Except.ok.injEq] at hr
    exact ⟨pattern, hpattern, hr.symm⟩
  · rintro ⟨pattern, hpattern, rfl⟩
    exact ⟨pattern, hpattern, rfl⟩

/-- The name of a new route is the segments that lead to it with dots between them, if that of its parent is. -/
theorem name_of_child_eq_join {id : Nat} {parent r : Route} {init : List Text} {segment : Text} {spec : RouteSpec}
    (h : (child id parent segment spec).outcome = .ok r) (hname : parent.name = Text.join ['.'] init)
    (hne : init ≠ [] → parent.name ≠ []) : r.name = Text.join ['.'] (init ++ [segment]) := by
  obtain ⟨pattern, -, rfl⟩ := child_eq_ok_iff.mp h
  by_cases hinit : init = []
  · simp [hname, hinit, Text.join]
  · rw [Text.join_append hinit (List.cons_ne_nil _ _), ← hname]
    simp [hne hinit, Text.join]

theorem nodup_withSegment {segment : Text} {others : List Text} (h : others.Nodup) :
    (withSegment segment others).Nodup := by
  rw [withSegment_eq]
  split
  · exact h
  · next hnew => exact List.nodup_append_comm.mp (List.nodup_cons.mpr ⟨hnew, h⟩)

/-- What segments lead to is found by fetching. -/
theorem fetch_of_routeAt (above : List Route) {b : Branch} {n : List Text} {r : Route} (h : b.routeAt n = some r) :
    ∃ p, b.fetch above n = .ok p ∧ p.route = r := by
  have hroute := map_route_fetch above b n
  rw [h] at hroute
  cases hp : b.fetch above n with
  | error e =>
    rw [hp] at hroute
    cases hroute
  | ok p =>
    rw [hp] at hroute
    exact ⟨p, rfl, Option.some.inj hroute⟩

theorem getLast?_of_view {b : Branch} {n : List Text} {v : Lineage × List Text} (h : b.view n = some v) :
    v.1.getLast? = b.routeAt n := by
  obtain ⟨p, hp, hlineage, -⟩ := view_eq_some_iff.mp h
  have hroute := map_route_fetch [] b n
  rw [hp] at hroute
  rw [← hroute, ← hlineage, Place.lineage, List.getLast?_concat]
  rfl

theorem exists_view_of_routeAt {b : Branch} {n : List Text} {r : Route} (h : b.routeAt n = some r) :
    ∃ v, b.view n = some v ∧ lineageName v.1 = r.name := by
  have hsome := isSome_routeAt b n
  rw [h] at hsome
  obtain ⟨v, hv⟩ := Option.isSome_iff_exists.mp hsome.symm
  refine ⟨v, hv, ?_⟩
  rw [lineageName, getLast?_of_view hv, h]
  rfl

end Branch

namespace Tree

open Branch

theorem apart_children {t : Tree} (h : ∀ {n v}, t.root.view n = some v → v.2.Nodup) : Apart t.root.children := by
  apply apart_of_view t.root.route
  rw [node_route_children]
  intro n v hv
  exact h hv

/-- Whether the segments that lead to routes are none but those that names are made of, the routes have names that are
made of them, and the segments below each route are different. -/
structure WellNamed (t : Tree) : Prop where
  segments : ∀ {n v}, t.root.view n = some v → ∀ s ∈ n, IsSegment s
  name : ∀ {n v}, t.root.view n = some v → lineageName v.1 = Text.join ['.'] n
  nodup : ∀ {n v}, t.root.view n = some v → v.2.Nodup

theorem wellNamed_create {delimiter : Text} {t : Tree} (h : (create delimiter).outcome = .ok t) : t.WellNamed := by
  have hname : t.root.route.name = [] := by
    obtain ⟨pattern, -, h⟩ := Traced.bind_outcome_eq_ok.mp h
    rw [← Except.ok.inj h]
    rfl
  constructor
  · intro n v hv s hs
    rw [(view_of_create h hv).1] at hs
    cases hs
  · intro n v hv
    rw [(view_of_create h hv).1, (view_of_create h hv).2]
    exact hname
  · intro n v hv
    rw [(view_of_create h hv).2]
    exact List.nodup_nil

/-- A tree stays well named when a route is added under segments that names are made of. -/
theorem WellNamed.add {t u : Tree} {name : RouteName} {names : List Text} {spec : RouteSpec} (ht : t.WellNamed)
    (hsplit : name.split = .ok names) (hnames : ∀ s ∈ names, IsSegment s) (h : (t.add name spec).outcome = .ok u) :
    u.WellNamed := by
  obtain ⟨init, segment, above, parent, others, r, rfl, hparent, hr, -, -, hcases⟩ := view_of_add hsplit h
  have hsegments := ht.segments hparent
  constructor
  · intro n v hv
    rcases hcases _ _ hv with ⟨rfl, -⟩ | ⟨-, w, hw, -⟩
    · exact hnames
    · exact ht.segments hw
  · intro n v hv
    rcases hcases _ _ hv with ⟨rfl, rfl⟩ | ⟨-, w, hw, rfl⟩
    · have hname : parent.name = Text.join ['.'] init := by simpa [lineageName] using ht.name hparent
      have hlast : lineageName (above ++ [parent, r]) = r.name := by simp [lineageName]
      rw [hlast]
      refine name_of_child_eq_join hr hname fun hinit => ?_
      rwa [hname, ne_eq, join_segments_eq_nil_iff hsegments]
    · show lineageName w.1 = _
      exact ht.name hw
  · intro n v hv
    rcases hcases _ _ hv with ⟨-, rfl⟩ | ⟨-, w, hw, rfl⟩
    · exact List.nodup_nil
    · dsimp only
      split
      · exact nodup_withSegment (ht.nodup hw)
      · exact ht.nodup hw

namespace WellNamed

variable {t : Tree}

theorem apart (ht : t.WellNamed) : Apart t.root.children := apart_children fun hv => ht.nodup hv

theorem map_routeAt (ht : t.WellNamed) :
    (addressesOf t.root.children).map t.root.routeAt = t.root.walk.map some := by
  have hmap := map_routeAt_addressesOf t.root.route ht.apart
  rwa [node_route_children] at hmap

theorem mem_addresses (ht : t.WellNamed) {n : List Text} :
    n ∈ addressesOf t.root.children ↔ n ≠ [] ∧ ∃ r, t.root.routeAt n = some r := by
  rw [mem_addressesOf t.root.route ht.apart, node_route_children, Option.isSome_iff_exists]

/-- The name of a route tells the segments that lead to it. -/
theorem name_of_routeAt (ht : t.WellNamed) {n : List Text} {r : Route} (h : t.root.routeAt n = some r) :
    r.name = Text.join ['.'] n ∧ ∀ s ∈ n, IsSegment s := by
  obtain ⟨v, hv, hname⟩ := exists_view_of_routeAt h
  exact ⟨hname.symm.trans (ht.name hv), ht.segments hv⟩

theorem routeAt_inj (ht : t.WellNamed) {m n : List Text} {r : Route} (hm : t.root.routeAt m = some r)
    (hn : t.root.routeAt n = some r) : m = n := by
  obtain ⟨hname, hsegments⟩ := ht.name_of_routeAt hm
  obtain ⟨hname', hsegments'⟩ := ht.name_of_routeAt hn
  exact join_segments_inj hsegments hsegments' (hname.symm.trans hname')

/-- A name leads to a route on the way down to another one if and only if its segments are the first ones of those that
lead to the other one. -/
theorem exists_fetch_mem_iff (ht : t.WellNamed) {n : List Text} {v : Lineage × List Text} (hv : t.root.view n = some v)
    {name : Text} (hname : name ≠ []) :
    (∃ p, t.fetch (.dotted name) = .ok p ∧ p.route ∈ v.1) ↔ Text.splitOn '.' name <+: n := by
  have hlineage := lineage_of_view hv
  rw [fetch_dotted hname]
  constructor
  · rintro ⟨p, hp, hmem⟩
    have hroute := map_route_fetch [] t.root (Text.splitOn '.' name)
    rw [hp] at hroute
    have hmem' : some p.route ∈ n.inits.map t.root.routeAt := hlineage ▸ List.mem_map_of_mem hmem
    obtain ⟨m, hm, hsame⟩ := List.mem_map.mp hmem'
    rw [ht.routeAt_inj hroute.symm hsame]
    exact (List.mem_inits m n).mp hm
  · intro hpre
    have hmem : t.root.routeAt (Text.splitOn '.' name) ∈ v.1.map some := by
      rw [hlineage]
      exact List.mem_map_of_mem ((List.mem_inits _ n).mpr hpre)
    obtain ⟨r, hr, hsome⟩ := List.mem_map.mp hmem
    obtain ⟨p, hp, rfl⟩ := fetch_of_routeAt [] hsome.symm
    exact ⟨p, hp, hr⟩

/-- Every route is found by its name. -/
theorem fetch_name (ht : t.WellNamed) {r : Route} (hr : r ∈ t.root.walk) :
    ∃ p, t.fetch (.dotted r.name) = .ok p ∧ p.route = r := by
  have hmem : some r ∈ (addressesOf t.root.children).map t.root.routeAt := by
    rw [ht.map_routeAt]
    exact List.mem_map_of_mem hr
  obtain ⟨n, hn, hroute⟩ := List.mem_map.mp hmem
  have hnil := (ht.mem_addresses.mp hn).1
  obtain ⟨hname, hsegments⟩ := ht.name_of_routeAt hroute
  have hne : r.name ≠ [] := by rwa [hname, ne_eq, join_segments_eq_nil_iff hsegments]
  rw [fetch_dotted hne, hname, splitOn_join_segments hnil hsegments]
  exact fetch_of_routeAt [] hroute

/-- No two routes have the same name. -/
theorem nodup_names (ht : t.WellNamed) : (t.root.walk.map Route.name).Nodup := by
  have hnodup : (addressesOf t.root.children).Nodup := by
    refine (addressesOf_pairwise ht.apart).imp ?_
    rintro m n hnot rfl
    exact hnot (List.prefix_refl m)
  have hroutes : (t.root.walk.map some).Nodup := by
    rw [← ht.map_routeAt]
    refine List.Nodup.map_on ?_ hnodup
    intro m hm n hn hsame
    obtain ⟨-, r, hr⟩ := ht.mem_addresses.mp hm
    exact ht.routeAt_inj hr (hsame ▸ hr)
  refine List.Nodup.map_on ?_ (List.Nodup.of_map some hroutes)
  -- a route is found by its name, so two routes with the same name are the same
  intro r hr s hs hsame
  obtain ⟨p, hp, rfl⟩ := ht.fetch_name hr
  obtain ⟨q, hq, rfl⟩ := ht.fetch_name hs
  rw [hsame, hq, Except.ok.injEq] at hp
  rw [hp]

end WellNamed

end Tree

end Routing
