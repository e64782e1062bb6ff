import Mathlib.Logic.Relation
import Routing.Proofs.Router.Search
import Routing.Proofs.Tree.Naming

/-!
# Redirections

A route redirects to the name that its content has for that. Following goes from name to name and stops where a name
comes back. In a well named tree every name tells a route, so a name comes back exactly when a route does, and no walk
over redirections goes through more routes than the tree has (`Walk.length_le`). So following always ends: at a route
that redirects no further, at a name that leads to no route, or in a loop (`Walk.exists_ends`), whichever of these the
chain of redirections comes to (`Ends`).
-/

namespace Routing

open Relation

namespace Router

/-- Whether a route redirects to a name: its content has a text for the name, which is not empty. -/
def RedirectsTo (r : Route) (name : Text) : Prop := r.content.get? redirectKey = some (.str name) ∧ name ≠ []

/-- Whether what a content has for a redirection is a text, if it has anything. -/
def RedirectsByText (content : Mapping Value) : Prop := ∀ v, content.get? redirectKey = some v → ∃ name, v = .str name

/-- Whether the route of one place redirects to the route of another one. -/
def Redirects (tree : Tree) (p q : Place) : Prop :=
  ∃ name, RedirectsTo p.route name ∧ tree.fetch (.dotted name) = .ok q

section Target

variable {r : Route} {name : Text}

theorem redirectTarget_of_redirectsTo (h : RedirectsTo r name) : redirectTarget r = .ok (some name) := by
  obtain ⟨hcontent, hname⟩ := h
  rw [redirectTarget, hcontent]
  simp [Value.isTruthy, hname]

theorem RedirectsTo.unique {other : Text} (h : RedirectsTo r name) (h' : RedirectsTo r other) : name = other := by
  have hsame := h.1.symm.trans h'.1
  rw [Option.some.injEq, Value.str.injEq] at hsame
  exact hsame

theorem redirectTarget_of_not (hr : RedirectsByText r.content) (h : ∀ name, ¬ RedirectsTo r name) :
    redirectTarget r = .ok none := by
  rw [redirectTarget]
  cases hcontent : r.content.get? redirectKey with
  | none => rfl
  | some v =>
    obtain ⟨name, rfl⟩ := hr v hcontent
    obtain rfl : name = [] := by
      by_contra hname
      exact h name ⟨hcontent, hname⟩
    rfl

end Target

section Follow

variable {tree : Tree} {fuel : Nat} {seen : List Text} {route : Route} {lineage : Lineage} {name : Text}

theorem followFrom_of_none (h : redirectTarget route = .ok none) :
    followFrom tree fuel seen route lineage = .ok lineage := by
  cases fuel <;> rw [followFrom, h] <;> rfl

theorem followFrom_of_seen (h : redirectTarget route = .ok (some name)) (hseen : name ∈ seen) :
    followFrom tree fuel seen route lineage = .error (.redirectLoop name) := by
  have hcontains : seen.contains name = true := List.contains_iff_mem.mpr hseen
  cases fuel <;> rw [followFrom, h] <;> simp only [bind, Except.bind, hcontains] <;> rfl

theorem followFrom_succ (h : redirectTarget route = .ok (some name)) (hnew : name ∉ seen) :
    followFrom tree (fuel + 1) seen route lineage =
      tree.fetch (.dotted name) >>= fun place => followFrom tree fuel (name :: seen) place.route place.lineage := by
  have hcontains : seen.contains name = false := by simpa using hnew
  rw [followFrom, h]
  simp only [bind, Except.bind, hcontains]
  rfl

end Follow

/-! ### Chains of redirections -/

section Chains

variable {tree : Tree} {p q c : Place}

/-- A route redirects to one route at most. -/
theorem rightUnique_redirects (tree : Tree) : Relator.RightUnique (Redirects tree) := by
  rintro p q q' ⟨name, hname, hq⟩ ⟨name', hname', hq'⟩
  obtain rfl := hname.unique hname'
  exact Except.ok.inj (hq.symm.trans hq')

/-- All that a loop leads to is on it. -/
theorem loops_of_reflTransGen (hloop : TransGen (Redirects tree) c c) (h : ReflTransGen (Redirects tree) c q) :
    TransGen (Redirects tree) q q := by
  induction h with
  | refl => exact hloop
  | tail _ hstep ih =>
    obtain ⟨next, hnext, hback⟩ := TransGen.head'_iff.mp ih
    obtain rfl := rightUnique_redirects tree hnext hstep
    exact TransGen.tail' hback hstep

/-- Redirections lead to one place at most that they do not lead on from. -/
theorem eq_of_stuck {q' : Place} (hq : ReflTransGen (Redirects tree) p q) (hq' : ReflTransGen (Redirects tree) p q')
    (hstuck : ∀ next, ¬ Redirects tree q next) (hstuck' : ∀ next, ¬ Redirects tree q' next) : q = q' := by
  rcases hq.total_of_right_unique (rightUnique_redirects tree) hq' with h | h
  · rcases h.cases_head with heq | ⟨next, hnext, -⟩
    · exact heq
    · exact absurd hnext (hstuck next)
  · rcases h.cases_head with heq | ⟨next, hnext, -⟩
    · exact heq.symm
    · exact absurd hnext (hstuck' next)

/-- Redirections that lead to a place that they do not lead on from lead to no loop. -/
theorem not_loops_of_stuck (hq : ReflTransGen (Redirects tree) p q) (hstuck : ∀ next, ¬ Redirects tree q next)
    (hc : ReflTransGen (Redirects tree) p c) : ¬ TransGen (Redirects tree) c c := by
  intro hloop
  have hqloop : TransGen (Redirects tree) q q := by
    rcases hq.total_of_right_unique (rightUnique_redirects tree) hc with h | h
    · rcases h.cases_head with rfl | ⟨next, hnext, -⟩
      · exact hloop
      · exact absurd hnext (hstuck next)
    · exact loops_of_reflTransGen hloop h
  obtain ⟨next, hnext, -⟩ := TransGen.head'_iff.mp hqloop
  exact hstuck next hnext

theorem not_redirects_of_rests (h : ∀ name, ¬ RedirectsTo q.route name) (next : Place) : ¬ Redirects tree q next := by
  rintro ⟨name, hname, -⟩
  exact h name hname

theorem not_redirects_of_lost {name : Text} {e : RouteError} (hname : RedirectsTo q.route name)
    (hlost : tree.fetch (.dotted name) = .error e) (next : Place) : ¬ Redirects tree q next := by
  rintro ⟨name', hname', hnext⟩
  obtain rfl := hname.unique hname'
  rw [hlost] at hnext
  cases hnext

end Chains

/-- How following redirections from a place ends. -/
inductive Ends (tree : Tree) (start : Place) : Except RouteError Lineage → Prop
  /-- At a route that redirects no further. -/
  | rests {q} (hq : ReflTransGen (Redirects tree) start q) (h : ∀ name, ¬ RedirectsTo q.route name) :
    Ends tree start (.ok q.lineage)
  /-- At a name that leads to no route. -/
  | lost {q name segment parent} (hq : ReflTransGen (Redirects tree) start q) (hname : RedirectsTo q.route name)
    (h : tree.fetch (.dotted name) = .error (.unknownRoute segment parent)) :
    Ends tree start (.error (.unknownRoute segment parent))
  /-- At a route that it came through before. -/
  | loops {q} (hq : ReflTransGen (Redirects tree) start q) (h : TransGen (Redirects tree) q q) :
    Ends tree start (.error (.redirectLoop q.route.name))

section Ends

variable {tree : Tree} {start : Place} {outcome : Except RouteError Lineage}

theorem Ends.eq_ok_iff (h : Ends tree start outcome) {target : Lineage} : outcome = .ok target ↔
    ∃ q, ReflTransGen (Redirects tree) start q ∧ (∀ name, ¬ RedirectsTo q.route name) ∧ q.lineage = target := by
  constructor
  · rintro rfl
    cases h with
    | rests hq h => exact ⟨_, hq, h, rfl⟩
  · rintro ⟨q, hq, hrests, rfl⟩
    have hstuck : ∀ next, ¬ Redirects tree q next := not_redirects_of_rests hrests
    cases h with
    | rests hq' hrests' => rw [eq_of_stuck hq hq' hstuck (not_redirects_of_rests hrests')]
    | lost hq' hname hlost =>
      obtain rfl := eq_of_stuck hq hq' hstuck (not_redirects_of_lost hname hlost)
      exact absurd hname (hrests _)
    | loops hc hloop => exact absurd hloop (not_loops_of_stuck hq hstuck hc)

theorem Ends.eq_unknown_iff (h : Ends tree start outcome) {segment parent : Text} :
    outcome = .error (.unknownRoute segment parent) ↔ ∃ q name, ReflTransGen (Redirects tree) start q ∧
      RedirectsTo q.route name ∧ tree.fetch (.dotted name) = .error (.unknownRoute segment parent) := by
  constructor
  · rintro rfl
    cases h with
    | lost hq hname h => exact ⟨_, _, hq, hname, h⟩
  · rintro ⟨q, name, hq, hname, hlost⟩
    have hstuck : ∀ next, ¬ Redirects tree q next := not_redirects_of_lost hname hlost
    cases h with
    | rests hq' hrests =>
      obtain rfl := eq_of_stuck hq hq' hstuck (not_redirects_of_rests hrests)
      exact absurd hname (hrests _)
    | lost hq' hname' hlost' =>
      obtain rfl := eq_of_stuck hq hq' hstuck (not_redirects_of_lost hname' hlost')
      obtain rfl := hname.unique hname'
      exact congrArg Except.error (Except.error.inj (hlost'.symm.trans hlost))
    | loops hc hloop => exact absurd hloop (not_loops_of_stuck hq hstuck hc)

theorem Ends.loops_iff (h : Ends tree start outcome) : (∃ name, outcome = .error (.redirectLoop name)) ↔
    ∃ q, ReflTransGen (Redirects tree) start q ∧ TransGen (Redirects tree) q q := by
  constructor
  · rintro ⟨name, rfl⟩
    cases h with
    | loops hq h => exact ⟨_, hq, h⟩
  · rintro ⟨c, hc, hloop⟩
    cases h with
    | rests hq hrests => exact absurd hloop (not_loops_of_stuck hq (not_redirects_of_rests hrests) hc)
    | lost hq hname hlost => exact absurd hloop (not_loops_of_stuck hq (not_redirects_of_lost hname hlost) hc)
    | loops => exact ⟨_, rfl⟩

end Ends

/-! ### Walks -/

section Places

variable {tree : Tree} {names : List Text} {p : Place} {name : Text}

theorem route_mem_of_fetch (h : tree.root.fetch [] names = .ok p) : p.route ∈ tree.root.routes := by
  have hlast : p.route ∈ p.lineage := List.mem_append_right _ (List.mem_singleton_self _)
  exact Branch.lineage_subset_of_fetch h hlast

theorem routeAt_of_fetch (h : tree.root.fetch [] names = .ok p) : tree.root.routeAt names = some p.route := by
  rw [← Branch.map_route_fetch [], h]
  rfl

/-- A place is found by the name of its route, if that is not the root. -/
theorem fetch_name_of_place (ht : tree.WellNamed) (h : tree.root.fetch [] names = .ok p) (hp : p.route.name ≠ []) :
    tree.fetch (.dotted p.route.name) = .ok p := by
  obtain ⟨hname, hsegments⟩ := ht.name_of_routeAt (routeAt_of_fetch h)
  have hnames : names ≠ [] := by
    rintro rfl
    exact hp hname
  rw [fetch_dotted hp, hname, splitOn_join_segments hnames hsegments, h]

theorem name_of_fetch (ht : tree.WellNamed) (hname : name ≠ []) (h : tree.fetch (.dotted name) = .ok p) :
    p.route.name = name := by
  rw [fetch_dotted hname] at h
  rw [(ht.name_of_routeAt (routeAt_of_fetch h)).1, Text.join_splitOn]

theorem unknownRoute_of_fetch {above : List Route} {b : Branch} {e : RouteError} (h : b.fetch above names = .error e) :
    ∃ segment parent, e = .unknownRoute segment parent := by
  induction names generalizing above b with
  | nil => cases h
  | cons segment rest ih =>
    rw [Branch.fetch] at h
    split at h
    · exact ih h
    · exact ⟨segment, _, (Except.error.inj h).symm⟩

end Places

/-- The names of the routes of some places. -/
def namesAt (places : List Place) : List Text := places.map fun p => p.route.name

/-- What a walk over redirections from a place leaves behind when it comes to a place: the places that it came through,
that one included. All are places of the tree with different names, and redirections lead on from each to the last. -/
structure Walk (tree : Tree) (start : Place) (visited : List Place) (p : Place) : Prop where
  mem : p ∈ visited
  reached : ∀ q ∈ visited, ReflTransGen (Redirects tree) start q
  leads : ∀ q ∈ visited, ReflTransGen (Redirects tree) q p
  found : ∀ q ∈ visited, ∃ names, tree.root.fetch [] names = .ok q
  nodup : (namesAt visited).Nodup

namespace Walk

variable {tree : Tree} {start p q : Place} {visited : List Place} {names : List Text}

theorem refl (h : tree.root.fetch [] names = .ok p) : Walk tree p [p] p := by
  constructor
  · exact List.mem_singleton_self p
  · simpa using ReflTransGen.refl
  · simpa using ReflTransGen.refl
  · simpa using ⟨names, h⟩
  · exact List.nodup_singleton _

theorem step (hw : Walk tree start visited p) (hq : Redirects tree p q) (hnew : q.route.name ∉ namesAt visited) :
    Walk tree start (q :: visited) q := by
  obtain ⟨name, -, hfetch⟩ := id hq
  obtain ⟨names, -, hfound⟩ := Pattern.bind_eq_ok.mp hfetch
  constructor
  · exact List.mem_cons_self
  · exact List.forall_mem_cons.mpr ⟨(hw.reached p hw.mem).tail hq, hw.reached⟩
  · exact List.forall_mem_cons.mpr ⟨.refl, fun s hs => (hw.leads s hs).tail hq⟩
  · exact List.forall_mem_cons.mpr ⟨⟨names, hfound⟩, hw.found⟩
  · exact List.nodup_cons.mpr ⟨hnew, hw.nodup⟩

/-- A walk goes through no more places than the tree has. -/
theorem length_le (hw : Walk tree start visited p) : visited.length ≤ tree.size := by
  have hsubset : namesAt visited ⊆ tree.root.routes.map Route.name := by
    intro name hname
    obtain ⟨q, hq, rfl⟩ := List.mem_map.mp hname
    obtain ⟨names, hfound⟩ := hw.found q hq
    exact List.mem_map_of_mem (route_mem_of_fetch hfound)
  have hlength := (List.subperm_of_subset hw.nodup hsubset).length_le
  simpa [namesAt, Tree.size] using hlength

/-- A walk ends, and so does the following of redirections, in the same way whatever number of steps it is given beyond
the number of routes that are left. -/
theorem exists_ends {tree : Tree} {start p : Place} {visited : List Place} (hw : Walk tree start visited p)
    (ht : tree.WellNamed) (htexts : ∀ r ∈ tree.root.routes, RedirectsByText r.content) :
    ∃ outcome, Ends tree start outcome ∧ ∀ fuel, tree.size < fuel + visited.length →
      followFrom tree fuel (namesAt visited) p.route p.lineage = outcome := by
  have hreached := hw.reached p hw.mem
  have hlength := hw.length_le
  by_cases hrests : ∀ name, ¬ RedirectsTo p.route name
  · obtain ⟨names, hfound⟩ := hw.found p hw.mem
    have htarget := redirectTarget_of_not (htexts _ (route_mem_of_fetch hfound)) hrests
    exact ⟨_, .rests hreached hrests, fun fuel _ => followFrom_of_none htarget⟩
  · push Not at hrests
    obtain ⟨name, hname⟩ := hrests
    have htarget := redirectTarget_of_redirectsTo hname
    by_cases hseen : name ∈ namesAt visited
    -- the name of a place that the walk came through leads back to it
    · obtain ⟨q, hq, rfl⟩ := List.mem_map.mp hseen
      obtain ⟨names, hfound⟩ := hw.found q hq
      have hback : Redirects tree p q := ⟨_, hname, fetch_name_of_place ht hfound hname.2⟩
      have hloop : TransGen (Redirects tree) q q := TransGen.tail' (hw.leads q hq) hback
      exact ⟨_, .loops (hw.reached q hq) hloop, fun fuel _ => followFrom_of_seen htarget hseen⟩
    -- another name leads to a new place, or to none
    · have hsucc : ∀ fuel, tree.size < fuel + visited.length → ∃ less, fuel = less + 1 :=
        fun fuel hfuel => Nat.exists_eq_succ_of_ne_zero (by omega)
      cases hfetch : tree.fetch (.dotted name) with
      | error e =>
        obtain ⟨segment, parent, rfl⟩ := unknownRoute_of_fetch ((fetch_dotted hname.2).symm.trans hfetch)
        refine ⟨_, .lost hreached hname hfetch, fun fuel hfuel => ?_⟩
        obtain ⟨less, rfl⟩ := hsucc fuel hfuel
        rw [followFrom_succ htarget hseen, hfetch]
        rfl
      | ok q =>
        have hq : q.route.name = name := name_of_fetch ht hname.2 hfetch
        have hstep : Walk tree start (q :: visited) q := hw.step ⟨name, hname, hfetch⟩ (hq.symm ▸ hseen)
        have hlonger := hstep.length_le
        obtain ⟨outcome, hends, hfollow⟩ := hstep.exists_ends ht htexts
        refine ⟨outcome, hends, fun fuel hfuel => ?_⟩
        obtain ⟨less, rfl⟩ := hsucc fuel hfuel
        rw [followFrom_succ htarget hseen, hfetch, ← hfollow less (by rw [List.length_cons]; omega), namesAt, namesAt,
          List.map_cons, hq]
        rfl
termination_by tree.size - visited.length
decreasing_by
  rw [List.length_cons] at hlonger ⊢
  omega

end Walk

end Router

end Routing
