import Mathlib.Data.List.Nodup
import Mathlib.Data.List.Perm.Subperm
import Routing.Proofs.Tree.Growth

/-!
# Numbers of routes

A tree that the operations on trees built gives every route a number of its own, below the one that the next route
gets (`numbered_of_built`). Adding a route puts one route with that next number in and takes others out at most
(`routes_of_add`), so a number stands for the same route as long as routes are only added.
-/

namespace Routing

/-- The trees that are built from a root by adding routes and by changing routes in their place. -/
inductive Built : Tree → Prop
  | create {delimiter t} (h : (Tree.create delimiter).outcome = .ok t) : Built t
  | add {t u name spec} (ht : Built t) (h : (t.add name spec).outcome = .ok u) : Built u
  | addBelow {t u start name spec} (ht : Built t) (h : (t.addBelow start name spec).outcome = .ok u) : Built u
  | change {α : Type} {t u start} {a : α} {f : Route → Traced (Route × α)} (ht : Built t)
    (hf : ∀ r s a, (f r).outcome = .ok (s, a) → s.id = r.id ∧ s.segment = r.segment)
    (h : (t.change start f).outcome = .ok (u, a)) : Built u

/-- Whether the routes of a tree have different numbers, all of them given out before the next one. -/
structure Tree.Numbered (t : Tree) : Prop where
  nodup : (t.root.routes.map Route.id).Nodup
  lt_next : ∀ r ∈ t.root.routes, r.id < t.next

namespace Branch

theorem routes_eq (b : Branch) : b.routes = b.route :: routesOf b.children := by
  cases b
  rw [routes]
  rfl

theorem segment_of_named {segment : Text} {branches : List Branch} {b : Branch} (h : named segment branches = some b) :
    b.route.segment = segment := by
  simpa using List.find?_some h

theorem id_of_child {id : Nat} {parent r : Route} {segment : Text} {spec : RouteSpec}
    (h : (child id parent segment spec).outcome = .ok r) : r.id = id := by
  obtain ⟨pattern, -, hr⟩ := Traced.bind_outcome_eq_ok.mp h
  rw [Traced.outcome_pure, Except.ok.injEq] at hr
  rw [← hr]

section Image

variable {β : Type} (f : Route → β)

/-- Putting a branch in the place of another one adds no more than the branch does. -/
theorem routesOf_setAmong_of_named {b inner : Branch} {branches : List Branch} {more : List β}
    (hnamed : named b.route.segment branches = some inner)
    (h : (b.routes.map f).Subperm (more ++ inner.routes.map f)) :
    ((routesOf (setAmong b branches)).map f).Subperm (more ++ (routesOf branches).map f) := by
  induction branches with
  | nil => cases hnamed
  | cons first rest ih =>
    rw [setAmong]
    by_cases hsegment : first.route.segment = b.route.segment
    · obtain rfl : first = inner := by simpa [named, hsegment] using hnamed
      rw [if_pos hsegment, routesOf, routesOf, List.map_append, List.map_append, ← List.append_assoc]
      exact (List.subperm_append_right _).mpr h
    · rw [if_neg hsegment, routesOf, routesOf, List.map_append, List.map_append]
      have hrest := ih (by simpa [named, hsegment] using hnamed)
      refine ((List.subperm_append_left _).mpr hrest).trans (List.Perm.subperm ?_)
      rw [← List.append_assoc, ← List.append_assoc]
      exact List.perm_append_comm.append_right _

/-- Putting a branch among others adds no more than its routes. -/
theorem routesOf_setAmong (b : Branch) (branches : List Branch) :
    ((routesOf (setAmong b branches)).map f).Subperm (b.routes.map f ++ (routesOf branches).map f) := by
  cases hnamed : named b.route.segment branches with
  | some inner =>
    exact routesOf_setAmong_of_named f hnamed (List.sublist_append_left _ _).subperm
  | none =>
    have hlast : setAmong b branches = branches ++ [b] := by
      induction branches with
      | nil => rfl
      | cons first rest ih =>
        rw [named, List.find?_cons] at hnamed
        split at hnamed
        · cases hnamed
        · next hsegment => rw [setAmong, if_neg (by simpa using hsegment), ih hnamed, List.cons_append]
    have happend : ∀ others : List Branch, routesOf (others ++ [b]) = routesOf others ++ b.routes := by
      intro others
      induction others with
      | nil => simp [routesOf]
      | cons first rest ih => rw [List.cons_append, routesOf, routesOf, ih, List.append_assoc]
    rw [hlast, happend, List.map_append]
    exact List.perm_append_comm.subperm

/-- Putting a branch in the place of another one adds no more to the branch above. -/
theorem routes_of_setAmong {b c inner : Branch} {more : List β}
    (hnamed : named c.route.segment b.children = some inner)
    (h : (c.routes.map f).Subperm (more ++ inner.routes.map f)) :
    ((node b.route (setAmong c b.children)).routes.map f).Subperm (more ++ b.routes.map f) := by
  rw [routes_eq b, routes, List.map_cons, List.map_cons]
  exact ((List.subperm_cons _).mpr (routesOf_setAmong_of_named f hnamed h)).trans List.perm_middle.symm.subperm

/-- A change of a branch further down that keeps its segment adds no more further up than it does there. -/
theorem routes_of_changeAt {α : Type} {change : Branch → Traced (Branch × α)} {p : List β → Prop}
    (hchange : ∀ b c a, (change b).outcome = .ok (c, a) →
      c.route.segment = b.route.segment ∧ ∃ more, p more ∧ (c.routes.map f).Subperm (more ++ b.routes.map f))
    {b c : Branch} {a : α} {names : List Text} (h : (changeAt change b names).outcome = .ok (c, a)) :
    c.route.segment = b.route.segment ∧ ∃ more, p more ∧ (c.routes.map f).Subperm (more ++ b.routes.map f) := by
  induction names generalizing b c a with
  | nil => exact hchange b c a (by rwa [changeAt] at h)
  | cons segment rest ih =>
    obtain ⟨inner, changed, hinner, hchanged, rfl⟩ := changeAt_cons_eq_ok h
    obtain ⟨hsegment, more, hmore, hroutes⟩ := ih hchanged
    refine ⟨rfl, more, hmore, routes_of_setAmong f ?_ hroutes⟩
    rw [hsegment, segment_of_named hinner, hinner]

/-- Adding a route to a branch keeps its own route and adds no more than the new route, which has the given number. -/
theorem routes_of_attach {id : Nat} {spec : RouteSpec} {b c : Branch} {names : List Text}
    (h : (attach id spec b names).outcome = .ok c) :
    c.route = b.route ∧ ∃ r : Route, r.id = id ∧ (c.routes.map f).Subperm ([f r] ++ b.routes.map f) := by
  induction names generalizing b c with
  | nil => cases h
  | cons segment rest ih =>
    cases rest with
    | nil =>
      obtain ⟨r, hr, rfl⟩ := attach_singleton_eq_ok h
      refine ⟨rfl, r, id_of_child hr, ?_⟩
      have hset := routesOf_setAmong f (node r []) b.children
      rw [routes, routesOf, List.map_cons, List.map_nil] at hset
      rw [routes_eq b, routes, List.map_cons, List.map_cons]
      exact ((List.subperm_cons _).mpr hset).trans (List.Perm.swap _ _ _).subperm
    | cons next rest =>
      obtain ⟨inner, changed, hinner, hchanged, rfl⟩ := attach_cons_eq_ok h
      obtain ⟨hroute, r, hid, hroutes⟩ := ih hchanged
      refine ⟨rfl, r, hid, routes_of_setAmong f ?_ hroutes⟩
      rw [hroute, segment_of_named hinner, hinner]

end Image

end Branch

theorem nodup_of_subperm {α : Type} {l m : List α} (h : l.Subperm m) (hm : m.Nodup) : l.Nodup := by
  obtain ⟨p, hperm, hsublist⟩ := h
  exact hperm.nodup_iff.mp (hm.sublist hsublist)

theorem subperm_map {α β : Type} {l m : List α} (f : α → β) (h : l.Subperm m) : (l.map f).Subperm (m.map f) := by
  obtain ⟨p, hperm, hsublist⟩ := h
  exact ⟨p.map f, hperm.map f, hsublist.map f⟩

namespace Tree

/-- Whether a tree has the routes of another one, some left out, and at most one more, which has the next number. -/
def AddsOne (t u : Tree) : Prop :=
  u.next = t.next + 1 ∧ ∃ r : Route, r.id = t.next ∧ u.root.routes.Subperm (r :: t.root.routes)

theorem addsOne_of_add {t u : Tree} {name : RouteName} {spec : RouteSpec} (h : (t.add name spec).outcome = .ok u) :
    t.AddsOne u := by
  obtain ⟨names, -, h⟩ := Traced.bind_outcome_eq_ok.mp h
  obtain ⟨root, hroot, h⟩ := Traced.bind_outcome_eq_ok.mp h
  rw [Traced.outcome_pure, Except.ok.injEq] at h
  obtain ⟨-, r, hid, hroutes⟩ := Branch.routes_of_attach id hroot
  rw [List.map_id, List.map_id] at hroutes
  rw [← h]
  exact ⟨rfl, r, hid, hroutes⟩

theorem addsOne_of_addBelow {t u : Tree} {start : List Text} {name : RouteName} {spec : RouteSpec}
    (h : (t.addBelow start name spec).outcome = .ok u) : t.AddsOne u := by
  obtain ⟨⟨root, a⟩, hroot, h⟩ := Traced.bind_outcome_eq_ok.mp h
  rw [Traced.outcome_pure, Except.ok.injEq] at h
  have hchange := Branch.routes_of_changeAt id (p := fun more => ∃ r : Route, r.id = t.next ∧ more = [r]) ?_ hroot
  · obtain ⟨-, more, ⟨r, hid, rfl⟩, hroutes⟩ := hchange
    rw [List.map_id, List.map_id] at hroutes
    rw [← h]
    exact ⟨rfl, r, hid, hroutes⟩
  · intro b c a hattach
    obtain ⟨names, -, hattach⟩ := Traced.bind_outcome_eq_ok.mp hattach
    obtain ⟨grown, hgrown, hattach⟩ := Traced.bind_outcome_eq_ok.mp hattach
    rw [Traced.outcome_pure, Except.ok.injEq, Prod.mk.injEq] at hattach
    obtain ⟨hroute, r, hid, hroutes⟩ := Branch.routes_of_attach id hgrown
    rw [← hattach.1]
    exact ⟨by rw [hroute], [r], ⟨r, hid, rfl⟩, hroutes⟩

theorem AddsOne.numbered {t u : Tree} (h : t.AddsOne u) (ht : t.Numbered) : u.Numbered := by
  obtain ⟨hnext, r, hid, hroutes⟩ := h
  have hlt : ∀ s ∈ r :: t.root.routes, s.id < u.next := by
    rw [List.forall_mem_cons, hid, hnext]
    exact ⟨Nat.lt_succ_self _, fun s hs => Nat.lt_succ_of_lt (ht.lt_next s hs)⟩
  have hnodup : ((r :: t.root.routes).map Route.id).Nodup := by
    rw [List.map_cons, List.nodup_cons, hid]
    refine ⟨fun hmem => ?_, ht.nodup⟩
    obtain ⟨s, hs, hsid⟩ := List.mem_map.mp hmem
    exact Nat.lt_irrefl _ (hsid ▸ ht.lt_next s hs)
  exact ⟨nodup_of_subperm (subperm_map Route.id hroutes) hnodup, fun s hs => hlt s (hroutes.subset hs)⟩

/-- Changing a route in its place changes no number. -/
theorem ids_of_change {α : Type} {t u : Tree} {start : List Text} {a : α} {f : Route → Traced (Route × α)}
    (hf : ∀ r s a, (f r).outcome = .ok (s, a) → s.id = r.id ∧ s.segment = r.segment)
    (h : (t.change start f).outcome = .ok (u, a)) :
    u.next = t.next ∧ (u.root.routes.map Route.id).Subperm (t.root.routes.map Route.id) := by
  obtain ⟨⟨root, a'⟩, hroot, h⟩ := Traced.bind_outcome_eq_ok.mp h
  rw [Traced.outcome_pure, Except.ok.injEq, Prod.mk.injEq] at h
  have hchange := Branch.routes_of_changeAt Route.id (p := fun more => more = []) ?_ hroot
  · obtain ⟨-, more, rfl, hroutes⟩ := hchange
    rw [← h.1]
    exact ⟨rfl, hroutes⟩
  · intro b c a hchanged
    obtain ⟨⟨s, a'⟩, hs, hchanged⟩ := Traced.bind_outcome_eq_ok.mp hchanged
    rw [Traced.outcome_pure, Except.ok.injEq, Prod.mk.injEq] at hchanged
    obtain ⟨hid, hsegment⟩ := hf _ _ _ hs
    rw [← hchanged.1]
    refine ⟨hsegment, [], rfl, ?_⟩
    rw [Branch.routes_eq b, Branch.routes, List.map_cons, List.map_cons, hid]
    exact List.Subperm.refl _

end Tree

/-- A tree that was built gives every route a number of its own. -/
theorem numbered_of_built {t : Tree} (h : Built t) : t.Numbered := by
  induction h with
  | create h =>
    obtain ⟨pattern, -, h⟩ := Traced.bind_outcome_eq_ok.mp h
    rw [Traced.outcome_pure, Except.ok.injEq] at h
    rw [← h]
    constructor <;> simp [Branch.routes, Branch.routesOf]
  | add _ h ih => exact (Tree.addsOne_of_add h).numbered ih
  | addBelow _ h ih => exact (Tree.addsOne_of_addBelow h).numbered ih
  | change _ hf h ih =>
    obtain ⟨hnext, hids⟩ := Tree.ids_of_change hf h
    refine ⟨nodup_of_subperm hids ih.nodup, fun r hr => ?_⟩
    obtain ⟨s, hs, hid⟩ := List.mem_map.mp (hids.subset (List.mem_map_of_mem hr))
    rw [hnext, ← hid]
    exact ih.lt_next s hs

end Routing
