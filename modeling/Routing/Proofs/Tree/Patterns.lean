import Routing.Proofs.Route.Reassign
import Routing.Proofs.Tree.Numbers
import Routing.Session

/-!
# Patterns of the routes of a tree

A tree lives on while routes are added to it and the patterns of its routes are assigned again, whether an assignment
fails or not. Each of its routes has a pattern that was assigned again and again, beginning with the one that it was
made with (`reached_of_lives`). What a session does to a route keeps its tree alive (`lives_of_setPattern`,
`lives_of_changeData`).
-/

namespace Routing

namespace Route

/-- Whether a route has a pattern that some texts are assigned to one after the other. -/
def IsReached (delimiter : Text) (r : Route) : Prop :=
  r.delimiter = delimiter ∧ ∃ sources, RoutePattern.Reached delimiter sources r.pattern

/-- Whether a change leaves the pattern of a route alone or assigns it, perhaps with a failure. -/
def AssignsAtMost {α : Type} (f : Route → Traced (Route × α)) : Prop :=
  ∀ r s a, (f r).outcome = .ok (s, a) → s.delimiter = r.delimiter ∧ (s.pattern = r.pattern ∨
    ∃ source failure, (r.pattern.assign r.delimiter source).outcome = .ok (s.pattern, failure))

theorem IsReached.change {α : Type} {delimiter : Text} {f : Route → Traced (Route × α)} (hf : AssignsAtMost f)
    {r s : Route} {a : α} (hr : r.IsReached delimiter) (h : (f r).outcome = .ok (s, a)) : s.IsReached delimiter := by
  obtain ⟨rfl, sources, hreached⟩ := hr
  obtain ⟨hdelimiter, hsame | ⟨source, failure, hassign⟩⟩ := hf r s a h
  · exact ⟨hdelimiter, sources, hsame ▸ hreached⟩
  · exact ⟨hdelimiter, sources ++ [source], hreached.assigned hassign⟩

end Route

/-- The trees that a root grows into when routes are added and their patterns are assigned again. -/
inductive Lives (delimiter : Text) : Tree → Prop
  | create {t} (h : (Tree.create delimiter).outcome = .ok t) : Lives delimiter t
  | add {t u name spec} (ht : Lives delimiter t) (h : (t.add name spec).outcome = .ok u) : Lives delimiter u
  | addBelow {t u start name spec} (ht : Lives delimiter t) (h : (t.addBelow start name spec).outcome = .ok u) :
    Lives delimiter u
  | change {α : Type} {t u start} {a : α} {f : Route → Traced (Route × α)} (ht : Lives delimiter t)
    (hf : Route.AssignsAtMost f) (h : (t.change start f).outcome = .ok (u, a)) : Lives delimiter u

namespace Branch

section Forall

variable {P : Route → Prop}

theorem forall_routes {b : Branch} : (∀ r ∈ b.routes, P r) ↔ P b.route ∧ ∀ r ∈ routesOf b.children, P r := by
  rw [routes_eq, List.forall_mem_cons]

theorem forall_routesOf {branches : List Branch} :
    (∀ r ∈ routesOf branches, P r) ↔ ∀ b ∈ branches, ∀ r ∈ b.routes, P r := by
  induction branches with
  | nil => simp [routesOf]
  | cons first rest ih => rw [routesOf, List.forall_mem_append, List.forall_mem_cons, ih]

theorem forall_routesOf_setAmong {b : Branch} {branches : List Branch} (h : ∀ r ∈ routesOf branches, P r)
    (hb : ∀ r ∈ b.routes, P r) : ∀ r ∈ routesOf (setAmong b branches), P r := by
  intro r hr
  have hsubset := (routesOf_setAmong id b branches).subset
  rw [List.map_id, List.map_id, List.map_id] at hsubset
  rcases List.mem_append.mp (hsubset hr) with hr | hr
  · exact hb r hr
  · exact h r hr

/-- Adding a route below some that all have a property gives it to all, if the new one has it from its parent. -/
theorem forall_of_attach {id : Nat} {spec : RouteSpec}
    (hchild : ∀ parent r segment, P parent → (child id parent segment spec).outcome = .ok r → P r) {b c : Branch}
    {names : List Text} (h : (attach id spec b names).outcome = .ok c) (hb : ∀ r ∈ b.routes, P r) :
    ∀ r ∈ c.routes, P r := by
  induction names generalizing b c with
  | nil => cases h
  | cons segment rest ih =>
    obtain ⟨htop, hbelow⟩ := forall_routes.mp hb
    cases rest with
    | nil =>
      obtain ⟨r, hr, rfl⟩ := attach_singleton_eq_ok h
      have hnew : ∀ s ∈ (node r []).routes, P s :=
        forall_routes.mpr ⟨hchild _ _ _ htop hr, by simp [children, routesOf]⟩
      exact forall_routes.mpr ⟨htop, forall_routesOf_setAmong hbelow hnew⟩
    | cons next rest =>
      obtain ⟨inner, changed, hinner, hchanged, rfl⟩ := attach_cons_eq_ok h
      have hchanged := ih hchanged (forall_routesOf.mp hbelow inner (mem_of_named hinner))
      exact forall_routes.mpr ⟨htop, forall_routesOf_setAmong hbelow hchanged⟩

/-- A change of a branch further down that keeps a property of all its routes does so further up. -/
theorem forall_of_changeAt {α : Type} {a : α} {change : Branch → Traced (Branch × α)}
    (hchange : ∀ b c, (change b).outcome = .ok (c, a) → (∀ r ∈ b.routes, P r) → ∀ r ∈ c.routes, P r)
    {b c : Branch} {names : List Text} (h : (changeAt change b names).outcome = .ok (c, a))
    (hb : ∀ r ∈ b.routes, P r) : ∀ r ∈ c.routes, P r := by
  induction names generalizing b c with
  | nil => exact hchange b c (by rwa [changeAt] at h) hb
  | cons segment rest ih =>
    obtain ⟨htop, hbelow⟩ := forall_routes.mp hb
    obtain ⟨inner, changed, hinner, hchanged, rfl⟩ := changeAt_cons_eq_ok h
    have hchanged := ih hchanged (forall_routesOf.mp hbelow inner (mem_of_named hinner))
    exact forall_routes.mpr ⟨htop, forall_routesOf_setAmong hbelow hchanged⟩

end Forall

theorem isReached_of_child {delimiter : Text} {id : Nat} {parent r : Route} {segment : Text} {spec : RouteSpec}
    (hparent : parent.IsReached delimiter) (h : (child id parent segment spec).outcome = .ok r) :
    r.IsReached delimiter := by
  obtain ⟨rfl, -⟩ := hparent
  obtain ⟨hdelimiter, fragment, hpattern⟩ := child_continues h
  exact ⟨hdelimiter, _, .made hpattern⟩

end Branch

/-- Every route of a tree that lives has a pattern that was assigned again and again. -/
theorem reached_of_lives {delimiter : Text} {t : Tree} (h : Lives delimiter t) :
    ∀ r ∈ t.root.routes, r.IsReached delimiter := by
  induction h with
  | create h =>
    obtain ⟨pattern, hpattern, h⟩ := Traced.bind_outcome_eq_ok.mp h
    rw [Traced.outcome_pure, Except.ok.injEq] at h
    rw [← h]
    exact Branch.forall_routes.mpr ⟨⟨rfl, _, .made hpattern⟩, by simp [Branch.children, Branch.routesOf]⟩
  | add _ h ih =>
    obtain ⟨names, -, h⟩ := Traced.bind_outcome_eq_ok.mp h
    obtain ⟨root, hroot, h⟩ := Traced.bind_outcome_eq_ok.mp h
    rw [Traced.outcome_pure, Except.ok.injEq] at h
    rw [← h]
    exact Branch.forall_of_attach (fun _ _ _ => Branch.isReached_of_child) hroot ih
  | addBelow _ h ih =>
    obtain ⟨⟨root, a⟩, hroot, h⟩ := Traced.bind_outcome_eq_ok.mp h
    rw [Traced.outcome_pure, Except.ok.injEq] at h
    rw [← h]
    refine Branch.forall_of_changeAt (fun b c hattach hb => ?_) hroot ih
    obtain ⟨names, -, hattach⟩ := Traced.bind_outcome_eq_ok.mp hattach
    obtain ⟨grown, hgrown, hattach⟩ := Traced.bind_outcome_eq_ok.mp hattach
    rw [Traced.outcome_pure, Except.ok.injEq, Prod.mk.injEq] at hattach
    rw [← hattach.1]
    exact Branch.forall_of_attach (fun _ _ _ => Branch.isReached_of_child) hgrown hb
  | change _ hf h ih =>
    obtain ⟨⟨root, a⟩, hroot, h⟩ := Traced.bind_outcome_eq_ok.mp h
    rw [Traced.outcome_pure, Except.ok.injEq, Prod.mk.injEq] at h
    rw [← h.1]
    refine Branch.forall_of_changeAt (fun b c hchanged hb => ?_) hroot ih
    obtain ⟨⟨s, a'⟩, hs, hchanged⟩ := Traced.bind_outcome_eq_ok.mp hchanged
    rw [Traced.outcome_pure, Except.ok.injEq, Prod.mk.injEq] at hchanged
    obtain ⟨htop, hbelow⟩ := Branch.forall_routes.mp hb
    rw [← hchanged.1]
    exact Branch.forall_routes.mpr ⟨htop.change hf hs, hbelow⟩

namespace Session

variable {delimiter : Text} {s s' : Session} {start : List Text}

theorem lives_of_changeRoute {α : Type} {a : α} {f : Route → Traced (Route × α)} (hf : Route.AssignsAtMost f)
    (hs : Lives delimiter s.router.tree) (h : (s.changeRoute start f).outcome = .ok (s', a)) :
    Lives delimiter s'.router.tree := by
  obtain ⟨⟨tree, changed, a'⟩, htree, h⟩ := Traced.bind_outcome_eq_ok.mp h
  rw [Traced.outcome_pure, Except.ok.injEq, Prod.mk.injEq] at h
  rw [← h.1]
  refine hs.change (fun r q b hq => ?_) htree
  obtain ⟨⟨q', a⟩, hq', hq⟩ := Traced.bind_outcome_eq_ok.mp hq
  rw [Traced.outcome_pure, Except.ok.injEq, Prod.mk.injEq] at hq
  rw [← hq.1]
  exact hf r q' a hq'

/-- Assigning a pattern keeps the tree of a session alive, also if the assignment fails. -/
theorem lives_of_setPattern {source : Text} {failure : Option RouteError} (hs : Lives delimiter s.router.tree)
    (h : (s.setPattern start source).outcome = .ok (s', failure)) : Lives delimiter s'.router.tree := by
  refine lives_of_changeRoute (fun r q b hq => ?_) hs h
  obtain ⟨⟨pattern, failure⟩, hassign, hq⟩ := Traced.bind_outcome_eq_ok.mp hq
  rw [Traced.outcome_pure, Except.ok.injEq, Prod.mk.injEq] at hq
  rw [← hq.1]
  exact ⟨rfl, Or.inr ⟨source, failure, hassign⟩⟩

/-- So does changing the data of a route. -/
theorem lives_of_changeData {f : Mapping Value → Mapping Value} {a : Unit} (hs : Lives delimiter s.router.tree)
    (h : (s.changeData start f).outcome = .ok (s', a)) : Lives delimiter s'.router.tree := by
  refine lives_of_changeRoute (fun r q b hq => ?_) hs h
  rw [Traced.outcome_pure, Except.ok.injEq, Prod.mk.injEq] at hq
  rw [← hq.1]
  exact ⟨rfl, Or.inl rfl⟩

end Session

end Routing
