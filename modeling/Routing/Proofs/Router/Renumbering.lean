import Routing.Proofs.Router.Junction
import Routing.Proofs.Router.Moves
import Routing.Proofs.Tree.Renumbering

/-!
# Routers with other numbers

A router whose routes have other numbers finds the same transitions but for the numbers, and writes the same links
(`outcome_matchLocation_renumber`, `link_renumber`). If different routes still have different numbers, a transition
leaves and enters the same routes (`outcome_disabled_renumber`, `outcome_enabled_renumber`). So the two routers move
side by side (`moves_renumber`).
-/

namespace Routing

/-- The tree with other numbers. -/
def Tree.renumber (σ : Nat → Nat) (t : Tree) : Tree := { t with root := t.root.renumber σ }

/-- The transition with other numbers. -/
def Transition.renumber (σ : Nat → Nat) (t : Transition) : Transition :=
  { t with source := t.source.map (List.map (Route.renumber σ)), target := t.target.map (Route.renumber σ) }

/-- The router with other numbers. -/
def Router.renumber (σ : Nat → Nat) (r : Router) : Router :=
  { r with tree := r.tree.renumber σ, current := r.current.map (List.map (Route.renumber σ)) }

theorem lineageName_renumber (σ : Nat → Nat) (lineage : Lineage) :
    lineageName (lineage.map (Route.renumber σ)) = lineageName lineage := by
  rw [lineageName, lineageName, List.getLast?_map, Option.map_map]
  rfl

namespace Tree

variable (σ : Nat → Nat) (t : Tree)

theorem size_renumber : (t.renumber σ).size = t.size := by
  show (t.root.renumber σ).routes.length = _
  rw [Branch.routes_renumber, List.length_map]
  rfl

theorem walk_renumber : (t.renumber σ).root.walk = t.root.walk.map (Route.renumber σ) := by
  show Branch.routesOf (t.root.renumber σ).children = _
  rw [Branch.children_renumber, Branch.routesOf_renumber]
  rfl

theorem fetch_renumber (name : RouteName) : (t.renumber σ).fetch name = (t.fetch name).map (Place.renumber σ) := by
  rw [fetch, fetch]
  cases name.split with
  | error e => rfl
  | ok names => exact Branch.fetch_renumber σ [] t.root names

end Tree

namespace Router

section Follow

variable (σ : Nat → Nat) (tree : Tree)

/-- Redirections lead to the same routes but for the numbers. -/
theorem followFrom_renumber (fuel : Nat) (seen : List Text) (route : Route) (lineage : Lineage) :
    followFrom (tree.renumber σ) fuel seen (route.renumber σ) (lineage.map (Route.renumber σ)) =
      (followFrom tree fuel seen route lineage).map (List.map (Route.renumber σ)) := by
  have htarget : ∀ r : Route, redirectTarget (r.renumber σ) = redirectTarget r := fun r => rfl
  induction fuel generalizing seen route lineage with
  | zero =>
    rw [followFrom, followFrom, htarget]
    cases redirectTarget route with
    | error e => rfl
    | ok target =>
      cases target with
      | none => rfl
      | some name =>
        show (if _ then _ else _) = Except.map _ (if _ then _ else _)
        split <;> rfl
  | succ fuel ih =>
    rw [followFrom, followFrom, htarget]
    cases redirectTarget route with
    | error e => rfl
    | ok target =>
      cases target with
      | none => rfl
      | some name =>
        show (if _ then _ else _) = Except.map _ (if _ then _ else _)
        split
        · rfl
        · show ((tree.renumber σ).fetch (.dotted name) >>= _) = Except.map _ (tree.fetch (.dotted name) >>= _)
          rw [Tree.fetch_renumber]
          cases tree.fetch (.dotted name) with
          | error e => rfl
          | ok place =>
            show followFrom _ _ _ (place.renumber σ).route (place.renumber σ).lineage = _
            rw [Place.route_renumber, Place.lineage_renumber]
            exact ih (name :: seen) place.route place.lineage

theorem follow_renumber (route : Route) (lineage : Lineage) :
    follow (tree.renumber σ) (route.renumber σ) (lineage.map (Route.renumber σ)) =
      (follow tree route lineage).map (List.map (Route.renumber σ)) := by
  rw [follow, follow, Tree.size_renumber]
  exact followFrom_renumber σ tree _ _ route lineage

end Follow

variable (σ : Nat → Nat) (r : Router)

/-- A location leads to the same transition but for the numbers. -/
theorem outcome_matchLocation_renumber (location : Text) :
    ((r.renumber σ).matchLocation location).outcome =
      (r.matchLocation location).outcome.map (Option.map (Transition.renumber σ)) := by
  have hnormalize : (r.renumber σ).normalize location = r.normalize location := rfl
  have hroot : (r.renumber σ).tree.root = r.tree.root.renumber σ := rfl
  rw [outcome_matchLocation, outcome_matchLocation, hnormalize, hroot, Branch.outcome_matchPath_renumber]
  cases (r.tree.root.matchPath (Text.dropLeading '/' (Text.cut '?' (r.normalize location)).1)
    (Query.parse ((Text.cut '?' (r.normalize location)).2.getD [])) .empty).outcome with
  | error e => rfl
  | ok found =>
    cases found with
    | none => rfl
    | some m =>
      have hlineage :
          (m.renumber σ).above ++ [(m.renumber σ).route] = (m.above ++ [m.route]).map (Route.renumber σ) := by
        rw [List.map_append]
        rfl
      show (follow (r.tree.renumber σ) (m.route.renumber σ) ((m.renumber σ).above ++ [(m.renumber σ).route]) >>= _) = _
      rw [hlineage, follow_renumber]
      show _ = Except.map _ (follow r.tree m.route (m.above ++ [m.route]) >>= _)
      cases follow r.tree m.route (m.above ++ [m.route]) <;> rfl

/-- Two routers of which one has other numbers move side by side. -/
theorem moves_renumber {start r : Router} {found : List Transition} (h : start.Moves r found) :
    (start.renumber σ).Moves (r.renumber σ) (found.map (Transition.renumber σ)) := by
  induction h with
  | start => exact .start
  | @search r _ location _ _ h ih =>
    have hfound := outcome_matchLocation_renumber σ r location
    rw [h] at hfound
    exact ih.search hfound
  | commit _ ht ih => exact ih.commit (List.mem_map_of_mem ht)

/-! ### Links -/

theorem chainQuery_renumber (name : RouteName) (params : Mapping Value) :
    (r.renumber σ).chainQuery name params = r.chainQuery name params := by
  rw [chainQuery, chainQuery]
  cases name.split with
  | error e => rfl
  | ok names =>
    show ((r.tree.root.renumber σ).fetch ([].map (Route.renumber σ)) names >>= _) = (r.tree.root.fetch [] names >>= _)
    rw [Branch.fetch_renumber]
    cases r.tree.root.fetch [] names with
    | error e => rfl
    | ok place =>
      show Except.ok _ = Except.ok _
      rw [Place.lineage_renumber, ← List.map_drop, List.foldl_map]
      rfl

theorem current_renumber : (r.renumber σ).current = r.current.map (List.map (Route.renumber σ)) := rfl

theorem resolveName_renumber (name : RouteName) : (r.renumber σ).resolveName name = r.resolveName name := by
  rw [resolveName, resolveName, current_renumber]
  split
  · cases r.current with
    | none => rfl
    | some lineage =>
      show Except.ok (RouteName.dotted _) = _
      rw [lineageName_renumber]
  · rfl

theorem linkTo_renumber (name : RouteName) (params : Mapping Value) (query : Option LinkQuery) (o : LinkOptions) :
    (r.renumber σ).linkTo name params query o = r.linkTo name params query o := by
  rw [linkTo, linkTo, resolveName_renumber]
  cases r.resolveName name with
  | error e => rfl
  | ok name =>
    show ((r.tree.renumber σ).fetch name >>= _) = (r.tree.fetch name >>= _)
    rw [Tree.fetch_renumber]
    cases r.tree.fetch name with
    | error e => rfl
    | ok place =>
      show (follow (r.tree.renumber σ) (place.renumber σ).route (place.renumber σ).lineage >>= _) =
        (follow r.tree place.route place.lineage >>= _)
      rw [Place.route_renumber, Place.lineage_renumber, follow_renumber]
      cases follow r.tree place.route place.lineage with
      | error e => rfl
      | ok target =>
        have hlast : ((target.map (Route.renumber σ)).getLast?).getD (place.route.renumber σ) =
            (target.getLast?.getD place.route).renumber σ := by
          rw [List.getLast?_map]
          cases target.getLast? <;> rfl
        cases query with
        | some q =>
          show (((target.map (Route.renumber σ)).getLast?).getD (place.route.renumber σ)).link r.settings params
            (r.linkOptions o) (some q) = _
          rw [hlast]
          rfl
        | none =>
          show ((r.renumber σ).chainQuery
            (.dotted (((target.map (Route.renumber σ)).getLast?).getD (place.route.renumber σ)).name) params >>=
              fun picked => (((target.map (Route.renumber σ)).getLast?).getD (place.route.renumber σ)).link r.settings
                params (r.linkOptions o) (some (.mapping picked))) = _
          rw [chainQuery_renumber, hlast]
          rfl

/-- The same links are written. -/
theorem link_renumber (name : RouteName) (params : Mapping Value) (query : Option LinkQuery) (o : LinkOptions) :
    (r.renumber σ).link name params query o = r.link name params query o := by
  have hlinkTo := r.linkTo_renumber σ name params query o
  cases name with
  | none => exact hlinkTo
  | dotted t =>
    show (if isAbsolute t then _ else _) = (if isAbsolute t then _ else _)
    rw [hlinkTo]
  | segments names =>
    cases names with
    | nil => exact hlinkTo
    | cons => rfl

end Router

/-! ### Transitions -/

namespace Transition

variable {σ : Nat → Nat} (hσ : Function.Injective σ) (t : Transition) (settings : Settings) (before : Mapping Value)

include hσ

theorem common_renumber (old new : Lineage) :
    (t.renumber σ).common settings before (old.map (Route.renumber σ)) (new.map (Route.renumber σ)) =
      t.common settings before old new := by
  induction old generalizing new with
  | nil => rfl
  | cons r old ih =>
    cases new with
    | nil => rfl
    | cons s new =>
      have hid : ((r.renumber σ).id != (s.renumber σ).id) = (r.id != s.id) := by
        show (σ r.id != σ s.id) = (r.id != s.id)
        rw [bne, bne, beq_eq_decide, beq_eq_decide, decide_eq_decide.mpr hσ.eq_iff]
      have hlink : (t.renumber σ).sameLink settings (r.renumber σ) before = t.sameLink settings r before := rfl
      rw [List.map_cons, List.map_cons, common, common, hid, hlink, ih]
      rfl

omit hσ in
theorem source_renumber : (t.renumber σ).source.getD [] = (t.source.getD []).map (Route.renumber σ) := by
  show (t.source.map _).getD [] = _
  cases t.source <;> rfl

/-- As many routes are kept. -/
theorem outcome_junctionIndex_renumber :
    ((t.renumber σ).junctionIndex settings before).outcome = (t.junctionIndex settings before).outcome := by
  rw [outcome_junctionIndex, outcome_junctionIndex, source_renumber]
  exact congrArg Traced.outcome (common_renumber hσ t settings before _ t.target)

/-- The same routes are left but for the numbers. -/
theorem outcome_disabled_renumber :
    ((t.renumber σ).disabled settings before).outcome =
      (t.disabled settings before).outcome.map (List.map (Route.renumber σ)) := by
  rw [outcome_disabled, outcome_disabled, outcome_junctionIndex_renumber hσ, source_renumber]
  cases (t.junctionIndex settings before).outcome with
  | error e => rfl
  | ok k =>
    show Except.ok (((t.source.getD []).map _).drop k).reverse = Except.ok _
    rw [← List.map_drop, ← List.map_reverse]

/-- The same routes are entered but for the numbers. -/
theorem outcome_enabled_renumber :
    ((t.renumber σ).enabled settings before).outcome =
      (t.enabled settings before).outcome.map (List.map (Route.renumber σ)) := by
  rw [outcome_enabled, outcome_enabled, outcome_junctionIndex_renumber hσ]
  cases (t.junctionIndex settings before).outcome with
  | error e => rfl
  | ok k =>
    show Except.ok ((t.target.map _).drop k) = Except.ok _
    rw [← List.map_drop]

/-- The same route is the deepest one that is kept but for its number. -/
theorem outcome_junction_renumber :
    ((t.renumber σ).junction settings before).outcome =
      (t.junction settings before).outcome.map (Option.map (Route.renumber σ)) := by
  rw [junction, junction, Traced.outcome_bind, Traced.outcome_bind, outcome_enabled_renumber hσ]
  cases (t.enabled settings before).outcome with
  | error e => rfl
  | ok entered =>
    cases entered with
    | nil => rfl
    | cons r entered =>
      show Except.ok (((t.target.map _).take ((t.target.map _).length - ((r :: entered).map _).length)).getLast?) =
        Except.ok _
      rw [← List.map_take, List.getLast?_map, List.length_map, List.length_map]

end Transition

end Routing
