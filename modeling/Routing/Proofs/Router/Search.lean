import Routing.Proofs.Tree.Numbers
import Routing.Proofs.Tree.Selection
import Routing.Router

/-!
# What a router finds

The chain of routes that a search leads to, by a path or by a name and over redirections, consists of routes of the
tree (`target_subset_of_matchLocation`). The transition to it starts at the current route.
-/

namespace Routing

namespace Branch

/-- The routes down to a place are the routes above the branches and routes of the branches. -/
theorem lineage_subset {above : List Route} {branches : List Branch} {p : Place} (hp : p ∈ placesAmong above branches) :
    p.lineage ⊆ above ++ routesOf branches := by
  induction branches using branches_induction generalizing above with
  | nil => simp [placesAmong] at hp
  | cons route children rest ihc ih =>
    rw [placesAmong, List.mem_append, List.mem_cons] at hp
    rw [routesOf, routes]
    rcases hp with hp | rfl | hp
    · have hbelow := ihc hp
      grind
    · intro r hr
      simp only [Place.lineage, Place.route, Branch.route] at hr
      grind
    · have hrest := ih hp
      grind

theorem routes_subset_of_mem {b : Branch} {branches : List Branch} (h : b ∈ branches) :
    b.routes ⊆ routesOf branches := by
  induction branches with
  | nil => cases h
  | cons first rest ih =>
    rw [routesOf]
    rcases List.mem_cons.mp h with rfl | h
    · exact List.subset_append_left _ _
    · exact List.subset_append_of_subset_right _ (ih h)

/-- The routes down to where some segments lead are routes of the branch. -/
theorem lineage_subset_of_fetch {above : List Route} {b : Branch} {names : List Text} {p : Place}
    (h : b.fetch above names = .ok p) : p.lineage ⊆ above ++ b.routes := by
  induction names generalizing above b with
  | nil =>
    rw [fetch, Except.ok.injEq] at h
    rw [← h, Place.lineage, Place.route, routes_eq]
    grind
  | cons segment rest ih =>
    rw [fetch] at h
    split at h
    · next child hchild =>
      have hbelow := ih h
      have hchildren : child.routes ⊆ routesOf b.children := routes_subset_of_mem (mem_of_named hchild)
      rw [routes_eq b]
      grind
    · cases h

end Branch

namespace Tree

theorem lineage_subset_of_fetch {t : Tree} {name : RouteName} {p : Place} (h : t.fetch name = .ok p) :
    p.lineage ⊆ t.root.routes := by
  obtain ⟨names, -, h⟩ := Pattern.bind_eq_ok.mp h
  exact Branch.lineage_subset_of_fetch h

/-- The routes down to a match are routes of the tree. -/
theorem lineage_subset_of_matchPath {t : Tree} {path : Text} {query given : Mapping Value} {m : Branch.Matched}
    (h : (t.root.matchPath path query given).outcome = .ok (some m)) : m.above ++ [m.route] ⊆ t.root.routes := by
  rcases Branch.outcome_matchPath_cases t.root path query given with houtcome | ⟨herror, -⟩
  · rw [houtcome] at h
    cases hselected : t.root.postOrder.findSome? (Place.selection path) with
    | none =>
      rw [hselected] at h
      cases h
    | some s =>
      rw [hselected, Option.elim] at h
      obtain ⟨p, hp, hselection⟩ := List.exists_of_findSome?_eq_some hselected
      have haccepts : p.accepts path = true := by
        rw [← Place.isSome_selection, hselection]
        rfl
      obtain ⟨found, -, hplace⟩ := Place.selection_of_accepts haccepts
      obtain rfl : ⟨p.above, p.route, found⟩ = s := Option.some.inj (hplace.symm.trans hselection)
      obtain ⟨_, hmatched, hsome⟩ := Pattern.map_eq_ok.mp h
      obtain rfl := Option.some.inj hsome
      rw [Branch.Selection.lineage_of_matched hmatched]
      have hlineage := Branch.lineage_subset hp
      rwa [Branch.routesOf, Branch.routesOf, List.append_nil, List.nil_append] at hlineage
  · rw [herror] at h
    cases h

end Tree

namespace Router

/-- Following redirections stays where it is, or it takes one step and goes on from there. -/
theorem followFrom_eq_ok {tree : Tree} {fuel : Nat} {seen : List Text} {route : Route} {lineage target : Lineage}
    (h : followFrom tree fuel seen route lineage = .ok target) :
    redirectTarget route = .ok none ∧ target = lineage ∨ ∃ less name place, fuel = less + 1 ∧
      tree.fetch (.dotted name) = .ok place ∧
      followFrom tree less (name :: seen) place.route place.lineage = .ok target := by
  cases fuel with
  | zero =>
    rw [followFrom] at h
    obtain ⟨name, hname, h⟩ := Pattern.bind_eq_ok.mp h
    cases name with
    | none => exact Or.inl ⟨hname, (Except.ok.inj h).symm⟩
    | some name =>
      exfalso
      simp only [throw, throwThe, MonadExceptOf.throw] at h
      split at h <;> cases h
  | succ less =>
    rw [followFrom] at h
    obtain ⟨name, hname, h⟩ := Pattern.bind_eq_ok.mp h
    cases name with
    | none => exact Or.inl ⟨hname, (Except.ok.inj h).symm⟩
    | some name =>
      simp only at h
      split at h
      · cases h
      · obtain ⟨place, hplace, h⟩ := Pattern.bind_eq_ok.mp h
        exact Or.inr ⟨less, name, place, rfl, hplace, h⟩

/-- Redirections lead to where they started or to where some name leads, and no further from there. -/
theorem end_of_followFrom {tree : Tree} {fuel : Nat} {seen : List Text} {route : Route} {lineage target : Lineage}
    (h : followFrom tree fuel seen route lineage = .ok target) :
    redirectTarget route = .ok none ∧ target = lineage ∨
      ∃ name p, tree.fetch name = .ok p ∧ redirectTarget p.route = .ok none ∧ p.lineage = target := by
  induction fuel generalizing seen route lineage with
  | zero =>
    rcases followFrom_eq_ok h with hstays | ⟨less, -, -, hless, -⟩
    · exact Or.inl hstays
    · cases hless
  | succ fuel ih =>
    rcases followFrom_eq_ok h with hstays | ⟨less, name, place, hless, hplace, h⟩
    · exact Or.inl hstays
    · obtain rfl := Nat.succ.inj hless
      rcases ih h with ⟨hstays, rfl⟩ | hfound
      · exact Or.inr ⟨_, place, hplace, hstays, rfl⟩
      · exact Or.inr hfound

/-- Redirections lead from routes of the tree to routes of the tree. -/
theorem subset_of_followFrom {tree : Tree} {fuel : Nat} {seen : List Text} {route : Route} {lineage target : Lineage}
    (h : followFrom tree fuel seen route lineage = .ok target) (hlineage : lineage ⊆ tree.root.routes) :
    target ⊆ tree.root.routes := by
  rcases end_of_followFrom h with ⟨-, rfl⟩ | ⟨name, p, hp, -, rfl⟩
  · exact hlineage
  · exact Tree.lineage_subset_of_fetch hp

/-- A search matches the path and the query of a location, and follows the redirections of the route that is found. -/
theorem outcome_matchLocation (r : Router) (location : Text) :
    (r.matchLocation location).outcome = do
      match ← (r.tree.root.matchPath (Text.dropLeading '/' (Text.cut '?' (r.normalize location)).1)
        (Query.parse ((Text.cut '?' (r.normalize location)).2.getD [])) .empty).outcome with
      | none => return none
      | some m =>
        let target ← follow r.tree m.route (m.above ++ [m.route])
        return some { source := r.current, target, params := m.params } := by
  rw [matchLocation]
  generalize r.normalize location = normal
  obtain ⟨path, query⟩ := Text.cut '?' normal
  -- no query and an empty one are both read as no parameters
  rcases query with _ | ⟨_ | ⟨c, rest⟩⟩
  all_goals
    rw [Traced.outcome_bind]
    congr 1
    funext found
    cases found with
    | none => rfl
    | some m =>
      rw [Traced.outcome_bind]
      congr 1

theorem matchLocation_eq_ok {r : Router} {location : Text} {t : Transition} :
    (r.matchLocation location).outcome = .ok (some t) ↔ ∃ m,
      (r.tree.root.matchPath (Text.dropLeading '/' (Text.cut '?' (r.normalize location)).1)
        (Query.parse ((Text.cut '?' (r.normalize location)).2.getD [])) .empty).outcome = .ok (some m) ∧
      follow r.tree m.route (m.above ++ [m.route]) = .ok t.target ∧
      t = { source := r.current, target := t.target, params := m.params } := by
  rw [outcome_matchLocation, Pattern.bind_eq_ok]
  constructor
  · rintro ⟨found, hfound, h⟩
    cases found with
    | none => cases h
    | some m =>
      obtain ⟨target, htarget, h⟩ := Pattern.bind_eq_ok.mp h
      rw [← Option.some.inj (Except.ok.inj h)]
      exact ⟨m, hfound, htarget, rfl⟩
  · rintro ⟨m, hfound, htarget, ht⟩
    exact ⟨some m, hfound, Pattern.bind_eq_ok.mpr ⟨t.target, htarget, by rw [ht]; rfl⟩⟩

/-- A transition that a search gives starts at the current route and leads to routes of the tree. -/
theorem matchLocation_eq_some {r : Router} {location : Text} {t : Transition}
    (h : (r.matchLocation location).outcome = .ok (some t)) : t.source = r.current ∧ t.target ⊆ r.tree.root.routes := by
  obtain ⟨m, hm, htarget, ht⟩ := matchLocation_eq_ok.mp h
  refine ⟨by rw [ht], subset_of_followFrom htarget (Tree.lineage_subset_of_matchPath hm)⟩

end Router

end Routing
