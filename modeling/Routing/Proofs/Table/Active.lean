import Routing.Proofs.Router.Moves
import Routing.Proofs.Table.Building

/-!
# Active routes

A name is active if it is that of the current route, or if that starts with it and a dot. In the router of a valid table
this test of texts says whether the name leads to a route on the way down to the current one (`isActive_iff`).
-/

namespace Routing

namespace Router

/-- What the test of a name without parameters compares. -/
theorem isActive_dotted (r : Router) (name : Text) :
    r.isActive (.dotted name) .empty = .ok (r.current.any fun lineage =>
      name == lineageName lineage || (name ++ ['.']).isPrefixOf (lineageName lineage)) := by
  rw [isActive]
  cases r.current with
  | none => rfl
  | some lineage =>
    show Except.ok (_ && List.all [] _) = _
    rw [List.all_nil, Bool.and_true, Option.any_some]

/-- In a router with a well named tree, whose current route is one that segments lead to, a name is active if and only
if it leads to a route on the way down to the current one. -/
theorem exists_isActive {r : Router} (ht : r.tree.WellNamed)
    (hcurrent : ∀ lineage, r.current = some lineage → r.tree.HasLineage lineage) {name : Text} (hname : name ≠ []) :
    ∃ active, r.isActive (.dotted name) .empty = .ok active ∧ (active = true ↔
      ∃ lineage, r.current = some lineage ∧ ∃ p, r.tree.fetch (.dotted name) = .ok p ∧ p.route ∈ lineage) := by
  refine ⟨_, r.isActive_dotted name, ?_⟩
  cases hlineage : r.current with
  | none => simp
  | some lineage =>
    obtain ⟨n, v, hv, rfl⟩ := hcurrent lineage hlineage
    rw [Option.any_some, ht.name hv, splitOn_prefix_iff hname (ht.segments hv), ← ht.exists_fetch_mem_iff hv hname]
    simp

end Router

namespace Table

open Router

/-- In the router of a valid table, after any searches and commits, a name is active if and only if there is a current
route and the name leads to it or to a route above it. And every route is found by its own name, which no other route
has. -/
theorem isActive_iff {t : Table} {settings : Settings} {start r : Router} {found : List Transition} (ht : t.IsValid)
    (hbuild : (t.build settings).outcome = .ok start) (hr : start.Moves r found) :
    (∀ name ≠ [], ∃ active, r.isActive (.dotted name) .empty = .ok active ∧ (active = true ↔
      ∃ lineage, r.current = some lineage ∧ ∃ p, r.tree.fetch (.dotted name) = .ok p ∧ p.route ∈ lineage)) ∧
    (∀ s ∈ r.tree.root.walk, ∃ p, r.tree.fetch (.dotted s.name) = .ok p ∧ p.route = s) ∧
    (r.tree.root.walk.map Route.name).Nodup := by
  obtain ⟨hnamed, hcurrent⟩ := wellNamed_of_build ht hbuild
  obtain ⟨-, hlineage⟩ := hasLineage_of_moves hnamed.apart hcurrent hr
  rw [← tree_of_moves hr] at hnamed hlineage
  refine ⟨?_, ?_, hnamed.nodup_names⟩
  · intro name hname
    exact exists_isActive hnamed hlineage hname
  · intro s hs
    exact hnamed.fetch_name hs

/-- The routes `a`, `a.b` and `ab`, where the current route is `a.b`: the name `a` is active and leads to a route above
it, and `ab`, which starts with `a` as well, is not active. -/
theorem part_of_name_is_not_active : ∃ (t : Table) (start r : Router) (found : List Transition), t.IsValid ∧
    (t.build {}).outcome = .ok start ∧ start.Moves r found ∧ r.current.map lineageName = some "a.b".toList ∧
    r.isActive (.dotted "a".toList) .empty = .ok true ∧ r.isActive (.dotted "ab".toList) .empty = .ok false ∧
    (∃ lineage, r.current = some lineage ∧ ∃ p, r.tree.fetch (.dotted "a".toList) = .ok p ∧ p.route ∈ lineage) ∧
    (∀ s ∈ r.tree.root.walk, ∃ p, r.tree.fetch (.dotted s.name) = .ok p ∧ p.route = s) ∧
    (r.tree.root.walk.map Route.name).Nodup := by
  let t : Table := { routes := [
    { name := "a".toList, pattern := "x".toList }, { name := "a.b".toList, pattern := "y".toList },
    { name := "ab".toList, pattern := "z".toList }] }
  have hvalid : t.IsValid := by
    show ∀ d ∈ t.routes, ∀ s ∈ Text.splitOn '.' d.name, s ≠ []
    decide
  have hrun : (t.build {}).Gives fun start => (start.matchLocation "/x/y".toList).Gives fun found =>
      found.map (lineageName ·.target) = some "a.b".toList := by
    cbv
  obtain ⟨start, hbuild, hrun⟩ := Traced.exists_of_gives hrun
  obtain ⟨_, hfound, hname⟩ := Traced.exists_of_gives hrun
  obtain ⟨m, rfl, htarget⟩ := Option.map_eq_some_iff.mp hname
  have hmoves : start.Moves (start.commit m) [m] := (Moves.start.search hfound).commit (List.mem_singleton.mpr rfl)
  obtain ⟨hactive, hfetch, hnodup⟩ := isActive_iff hvalid hbuild hmoves
  have htest : ∀ name, (start.commit m).isActive (.dotted name) .empty =
      .ok (name == "a.b".toList || (name ++ ['.']).isPrefixOf "a.b".toList) := by
    intro name
    rw [isActive_dotted, ← htarget]
    rfl
  have ha : (start.commit m).isActive (.dotted "a".toList) .empty = .ok true := by
    rw [htest]
    decide
  have hab : (start.commit m).isActive (.dotted "ab".toList) .empty = .ok false := by
    rw [htest]
    decide
  obtain ⟨active, hisActive, hiff⟩ := hactive "a".toList (by decide)
  obtain rfl : true = active := Except.ok.inj (ha.symm.trans hisActive)
  exact ⟨t, start, _, _, hvalid, hbuild, hmoves, congrArg some htarget, ha, hab, hiff.mp rfl, hfetch, hnodup⟩

end Table

end Routing
