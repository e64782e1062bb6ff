import Routing.Proofs.Router.Moves
import Routing.Proofs.Router.Redirections
import Routing.Proofs.Router.Single
import Routing.Proofs.Table.Building
import Routing.Proofs.Tree.Edges

/-!
# Redirections of a table

The router of a valid table redirects by the names that the contents of its definitions have (`redirectsByText_of_build`).
So following redirections from any of its routes always ends, at the route, at the lost name or in the loop that the
chain of redirections comes to (`follow_iff`).
-/

namespace Routing

open Relation

namespace Table

open Router

/-- If all contents of a table redirect by texts, so do those of the routes that it makes. -/
theorem redirectsByText_of_build {t : Table} {settings : Settings} {r : Router}
    (htexts : ∀ d ∈ t.routes, RedirectsByText d.content) (h : (t.build settings).outcome = .ok r) :
    ∀ s ∈ r.tree.root.routes, RedirectsByText s.content := by
  obtain ⟨tree, htree, h⟩ := build_eq_ok.mp h
  have hroot : ∀ s ∈ tree.root.routes, RedirectsByText s.content := by
    obtain ⟨pattern, -, htree⟩ := Traced.bind_outcome_eq_ok.mp htree
    rw [← Except.ok.inj htree]
    intro s hs v hv
    obtain rfl := List.mem_singleton.mp hs
    cases hv
  have hstep : ∀ d ∈ t.routes, ∀ t u : Tree, (∀ s ∈ t.root.routes, RedirectsByText s.content) →
      (t.add (.dotted d.name) d.spec).outcome = .ok u → ∀ s ∈ u.root.routes, RedirectsByText s.content := by
    intro d hd t u ht hadd s hs
    obtain ⟨parent, made, hadds⟩ := Tree.exists_adds_of_add hadd
    rcases hadds.gains.routes s hs with rfl | hold
    · obtain ⟨segment, hmade⟩ := hadds.gains.made
      obtain ⟨pattern, -, rfl⟩ := Branch.child_eq_ok_iff.mp hmade
      exact htexts d hd
    · exact ht s hold
  exact (exists_of_addAll (r := { settings, basePath := settings.base t.basePath, tree }) hstep h hroot).1

/-- Following redirections from a route of a valid table ends at a route if and only if the chain of redirections comes
to that route and it redirects no further, it ends with an unknown name if and only if the chain comes to a name that
leads to no route, and with a loop if and only if the chain comes back to a route. One of these happens, and it does
within as many steps as there are routes. -/
theorem follow_iff {t : Table} {settings : Settings} {r : Router} (ht : t.IsValid)
    (htexts : ∀ d ∈ t.routes, RedirectsByText d.content) (hbuild : (t.build settings).outcome = .ok r) {p : Place}
    (hp : p ∈ r.tree.root.postOrder) :
    (∀ target, follow r.tree p.route p.lineage = .ok target ↔
      ∃ q, ReflTransGen (Redirects r.tree) p q ∧ (∀ name, ¬ RedirectsTo q.route name) ∧ q.lineage = target) ∧
    (∀ segment parent, follow r.tree p.route p.lineage = .error (.unknownRoute segment parent) ↔
      ∃ q name, ReflTransGen (Redirects r.tree) p q ∧ RedirectsTo q.route name ∧
        r.tree.fetch (.dotted name) = .error (.unknownRoute segment parent)) ∧
    ((∃ name, follow r.tree p.route p.lineage = .error (.redirectLoop name)) ↔
      ∃ q, ReflTransGen (Redirects r.tree) p q ∧ TransGen (Redirects r.tree) q q) ∧
    ((∃ target, follow r.tree p.route p.lineage = .ok target) ∨
      (∃ segment parent, follow r.tree p.route p.lineage = .error (.unknownRoute segment parent)) ∨
      ∃ name, follow r.tree p.route p.lineage = .error (.redirectLoop name)) ∧
    ∀ fuel ≥ r.tree.size,
      followFrom r.tree fuel [p.route.name] p.route p.lineage = follow r.tree p.route p.lineage := by
  obtain ⟨hnamed, -⟩ := wellNamed_of_build ht hbuild
  obtain ⟨names, hfound⟩ := Branch.exists_fetch_of_mem_postOrder hnamed.apart hp
  obtain ⟨outcome, hends, hfollow⟩ := (Walk.refl hfound).exists_ends hnamed (redirectsByText_of_build htexts hbuild)
  have hfuel : ∀ fuel ≥ r.tree.size, followFrom r.tree fuel [p.route.name] p.route p.lineage = outcome :=
    fun fuel h => hfollow fuel (Nat.lt_succ_of_le h)
  have hsame : follow r.tree p.route p.lineage = outcome := hfuel _ (Nat.le_succ _)
  rw [hsame]
  refine ⟨fun _ => hends.eq_ok_iff, fun _ _ => hends.eq_unknown_iff, hends.loops_iff, ?_, hfuel⟩
  cases hends with
  | rests => exact Or.inl ⟨_, rfl⟩
  | lost => exact Or.inr (Or.inl ⟨_, _, rfl⟩)
  | loops => exact Or.inr (Or.inr ⟨_, rfl⟩)

/-- The routes `a`, which redirects to `b`, and `b` and `c`, which redirect to each other: from `a`, following ends in a
loop that `a` is not on. -/
theorem loop_behind_start : ∃ (t : Table) (r : Router) (p : Place), t.IsValid ∧
    (∀ d ∈ t.routes, RedirectsByText d.content) ∧ (t.build {}).outcome = .ok r ∧ p ∈ r.tree.root.postOrder ∧
    p.route.name = ['a'] ∧ follow r.tree p.route p.lineage = .error (.redirectLoop ['b']) ∧
    ∃ q, ReflTransGen (Redirects r.tree) p q ∧ TransGen (Redirects r.tree) q q := by
  let leads (name : Text) : Mapping Value := ⟨[(redirectKey, .str name)]⟩
  let t : Table := { routes := [
    { name := ['a'], pattern := ['x'], content := leads ['b'] },
    { name := ['b'], pattern := ['y'], content := leads ['c'] },
    { name := ['c'], pattern := ['z'], content := leads ['b'] }] }
  have hvalid : t.IsValid := by
    show ∀ d ∈ t.routes, ∀ s ∈ Text.splitOn '.' d.name, s ≠ []
    decide
  have htexts : ∀ d ∈ t.routes, RedirectsByText d.content := by
    intro d hd v hv
    have hleads : ∀ name, (leads name).get? redirectKey = some (.str name) := fun name => by
      simp [leads, Mapping.get?, Mapping.find]
    simp only [t, List.mem_cons, List.not_mem_nil, or_false] at hd
    rcases hd with rfl | rfl | rfl <;> exact ⟨_, (Option.some.inj ((hleads _).symm.trans hv)).symm⟩
  have hrun : (t.build {}).Gives fun r =>
      (r.tree.root.postOrder.find? (·.route.name == ['a'])).elim False fun p =>
        follow r.tree p.route p.lineage = .error (.redirectLoop ['b']) := by
    cbv
  obtain ⟨r, hbuild, hrun⟩ := Traced.exists_of_gives hrun
  cases hfind : r.tree.root.postOrder.find? (·.route.name == ['a']) with
  | none =>
    rw [hfind] at hrun
    exact hrun.elim
  | some p =>
    rw [hfind, Option.elim_some] at hrun
    have hp := List.mem_of_find?_eq_some hfind
    have hname : p.route.name = ['a'] := by simpa using List.find?_some hfind
    obtain ⟨-, -, hloops, -⟩ := follow_iff hvalid htexts hbuild hp
    exact ⟨t, r, p, hvalid, htexts, hbuild, hp, hname, hrun, hloops.mp ⟨_, hrun⟩⟩

end Table

end Routing
