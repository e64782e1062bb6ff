import Routing.Proofs.Tree.Patterns
import Routing.Proofs.Tree.Selection

/-!
# Parents and children

The edges of a tree are the pairs of a route and one right below it. Adding a route adds one edge, from the parent that
the route is made from (`exists_adds_of_add`), and no other route. What is replaced is gone with all its edges.
-/

namespace Routing

namespace Branch

mutual

/-- The pairs of a route and one right below it. -/
def edges : Branch → List (Route × Route)
  | node route children => edgesAmong route children

/-- The pairs of a parent and the route of some branches, and those in the branches. -/
def edgesAmong (parent : Route) : List Branch → List (Route × Route)
  | [] => []
  | b :: rest => (parent, b.route) :: b.edges ++ edgesAmong parent rest

end

variable {parent : Route} {b c : Branch} {branches : List Branch} {e : Route × Route}

theorem edges_eq (b : Branch) : b.edges = edgesAmong b.route b.children := by
  cases b
  rw [edges]
  rfl

theorem mem_edgesAmong : e ∈ edgesAmong parent branches ↔ ∃ b ∈ branches, e = (parent, b.route) ∨ e ∈ b.edges := by
  induction branches with
  | nil => simp [edgesAmong]
  | cons first rest ih => simp [edgesAmong, ih, or_assoc]

/-- The routes below a parent are those at the lower end of an edge. -/
theorem mem_routesOf_iff {r : Route} : r ∈ routesOf branches ↔ ∃ above, (above, r) ∈ edgesAmong parent branches := by
  induction branches using branches_induction generalizing parent with
  | nil => simp [routesOf, edgesAmong]
  | cons route children rest ihc ih =>
    have hchildren := @ihc route
    have hrest := @ih parent
    simp only [routesOf, routes, edgesAmong, edges, Branch.route, List.cons_append, List.mem_cons, List.mem_append,
      Prod.mk.injEq, hchildren, hrest, exists_or]
    simp

theorem mem_routes_iff {r : Route} : r ∈ b.routes ↔ r = b.route ∨ ∃ above, (above, r) ∈ b.edges := by
  rw [routes_eq, List.mem_cons, edges_eq, mem_routesOf_iff]

/-- Both ends of an edge are routes of the branch. -/
theorem mem_routes_of_mem_edges (h : e ∈ b.edges) : e.1 ∈ b.routes ∧ e.2 ∈ b.routes := by
  refine ⟨?_, mem_routes_iff.mpr (Or.inr ⟨e.1, h⟩)⟩
  have hends : ∀ branches : List Branch, ∀ parent, ∀ e ∈ edgesAmong parent branches,
      e.1 = parent ∨ e.1 ∈ routesOf branches := by
    intro branches
    induction branches using branches_induction with
    | nil => simp [edgesAmong]
    | cons route children rest ihc ih =>
      intro parent e he
      simp only [edgesAmong, edges, List.cons_append, List.mem_cons, List.mem_append] at he
      simp only [routesOf, routes, List.cons_append, List.mem_cons, List.mem_append]
      rcases he with rfl | he | he
      · exact Or.inl rfl
      · exact Or.inr ((ihc route e he).imp_right Or.inl)
      · exact (ih parent e he).imp_right fun he => Or.inr (Or.inr he)
  rw [edges_eq] at h
  rw [routes_eq, List.mem_cons]
  exact hends _ _ e h

theorem mem_setAmong (b : Branch) (branches : List Branch) : b ∈ setAmong b branches := by
  induction branches with
  | nil => exact List.mem_singleton.mpr rfl
  | cons first rest ih =>
    rw [setAmong]
    split
    · exact List.mem_cons_self
    · exact List.mem_cons_of_mem _ ih

theorem eq_or_mem_of_mem_setAmong (h : c ∈ setAmong b branches) : c = b ∨ c ∈ branches := by
  induction branches with
  | nil => exact Or.inl (List.mem_singleton.mp h)
  | cons first rest ih =>
    rw [setAmong] at h
    split at h
    · exact (List.mem_cons.mp h).imp_right (List.mem_cons_of_mem _)
    · rcases List.mem_cons.mp h with rfl | h
      · exact Or.inr List.mem_cons_self
      · exact (ih h).imp_right (List.mem_cons_of_mem _)

/-- Whether a branch becomes another one by a route that is added below a parent: the route is made from the parent,
their edge is there, and no other edge is new. -/
structure Gains (id : Nat) (spec : RouteSpec) (b c : Branch) (parent r : Route) : Prop where
  top : c.route = b.route
  parent_mem : parent ∈ b.routes
  made : ∃ segment, (child id parent segment spec).outcome = .ok r
  edge : (parent, r) ∈ c.edges
  edges : ∀ e ∈ c.edges, e = (parent, r) ∨ e ∈ b.edges

section Gains

variable {id : Nat} {spec : RouteSpec} {r : Route}

/-- No route is new but the one that was added. -/
theorem Gains.routes (h : Gains id spec b c parent r) : ∀ s ∈ c.routes, s = r ∨ s ∈ b.routes := by
  intro s hs
  rcases mem_routes_iff.mp hs with rfl | ⟨above, he⟩
  · exact Or.inr (mem_routes_iff.mpr (Or.inl h.top))
  · rcases h.edges _ he with he | he
    · exact Or.inl (Prod.mk.inj he).2
    · exact Or.inr (mem_routes_iff.mpr (Or.inr ⟨above, he⟩))

/-- What is added further down is added. -/
theorem Gains.setAmong {segment : Text} {inner changed : Branch} (hinner : named segment b.children = some inner)
    (h : Gains id spec inner changed parent r) :
    Gains id spec b (node b.route (setAmong changed b.children)) parent r := by
  have hchild := mem_of_named hinner
  refine ⟨rfl, ?_, h.made, ?_, fun e he => ?_⟩
  · rw [routes_eq b]
    exact List.mem_cons_of_mem _ (forall_routesOf.mp (fun s hs => hs) inner hchild parent h.parent_mem)
  · rw [Branch.edges]
    exact mem_edgesAmong.mpr ⟨_, mem_setAmong _ _, Or.inr h.edge⟩
  · rw [Branch.edges, mem_edgesAmong] at he
    obtain ⟨d, hd, he⟩ := he
    rw [edges_eq b, mem_edgesAmong]
    rcases eq_or_mem_of_mem_setAmong hd with rfl | hd
    · rcases he with rfl | he
      · exact Or.inr ⟨inner, hchild, Or.inl (by rw [h.top])⟩
      · exact (h.edges e he).imp_right fun he => ⟨inner, hchild, Or.inr he⟩
    · exact Or.inr ⟨d, hd, he⟩

theorem exists_gains_of_attach {names : List Text} (h : (attach id spec b names).outcome = .ok c) :
    ∃ parent r, Gains id spec b c parent r := by
  induction names generalizing b c with
  | nil => cases h
  | cons segment rest ih =>
    cases rest with
    | nil =>
      obtain ⟨r, hr, rfl⟩ := attach_singleton_eq_ok h
      refine ⟨b.route, r, rfl, mem_routes_iff.mpr (Or.inl rfl), ⟨segment, hr⟩, ?_, fun e he => ?_⟩
      · rw [edges]
        exact mem_edgesAmong.mpr ⟨_, mem_setAmong _ _, Or.inl rfl⟩
      · rw [edges, mem_edgesAmong] at he
        obtain ⟨d, hd, he⟩ := he
        rcases eq_or_mem_of_mem_setAmong hd with rfl | hd
        · exact he.imp_right fun he => absurd he (by simp [edges, edgesAmong])
        · rw [edges_eq b]
          exact Or.inr (mem_edgesAmong.mpr ⟨d, hd, he⟩)
    | cons next rest =>
      obtain ⟨inner, changed, hinner, hchanged, rfl⟩ := attach_cons_eq_ok h
      obtain ⟨parent, r, hgains⟩ := ih hchanged
      exact ⟨parent, r, hgains.setAmong hinner⟩

theorem exists_gains_of_changeAt {α : Type} {change : Branch → Traced (Branch × α)}
    (hchange : ∀ b c a, (change b).outcome = .ok (c, a) → ∃ parent r, Gains id spec b c parent r) {a : α}
    {names : List Text} (h : (changeAt change b names).outcome = .ok (c, a)) :
    ∃ parent r, Gains id spec b c parent r := by
  induction names generalizing b c a with
  | nil => exact hchange b c a (by rwa [changeAt] at h)
  | cons segment rest ih =>
    obtain ⟨inner, changed, hinner, hchanged, rfl⟩ := changeAt_cons_eq_ok h
    obtain ⟨parent, r, hgains⟩ := ih hchanged
    exact ⟨parent, r, hgains.setAmong hinner⟩

end Gains

end Branch

namespace Tree

/-- Whether a tree becomes another one by a route that is added below a parent. -/
structure Adds (t : Tree) (spec : RouteSpec) (parent r : Route) (u : Tree) : Prop where
  gains : Branch.Gains t.next spec t.root u.root parent r
  next : u.next = t.next + 1

variable {t u : Tree} {name : RouteName} {spec : RouteSpec}

theorem exists_adds_of_add (h : (t.add name spec).outcome = .ok u) : ∃ parent r, t.Adds spec parent r u := by
  obtain ⟨names, -, h⟩ := Traced.bind_outcome_eq_ok.mp h
  obtain ⟨root, hroot, h⟩ := Traced.bind_outcome_eq_ok.mp h
  rw [Traced.outcome_pure, Except.ok.injEq] at h
  obtain ⟨parent, r, hgains⟩ := Branch.exists_gains_of_attach hroot
  exact ⟨parent, r, h ▸ hgains, h ▸ rfl⟩

theorem exists_adds_of_addBelow {start : List Text} (h : (t.addBelow start name spec).outcome = .ok u) :
    ∃ parent r, t.Adds spec parent r u := by
  obtain ⟨⟨root, a⟩, hroot, h⟩ := Traced.bind_outcome_eq_ok.mp h
  rw [Traced.outcome_pure, Except.ok.injEq] at h
  obtain ⟨parent, r, hgains⟩ := Branch.exists_gains_of_changeAt (fun b c a hattach => by
    obtain ⟨names, -, hattach⟩ := Traced.bind_outcome_eq_ok.mp hattach
    obtain ⟨grown, hgrown, hattach⟩ := Traced.bind_outcome_eq_ok.mp hattach
    rw [Traced.outcome_pure, Except.ok.injEq, Prod.mk.injEq] at hattach
    exact hattach.1 ▸ Branch.exists_gains_of_attach hgrown) hroot
  exact ⟨parent, r, h ▸ hgains, h ▸ rfl⟩

end Tree

end Routing
