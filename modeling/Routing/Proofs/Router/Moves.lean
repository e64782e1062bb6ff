import Routing.Proofs.Router.Search
import Routing.Proofs.Tree.Naming
import Routing.Proofs.Tree.Precedence

/-!
# Moves of a router

A router moves by searching locations and committing transitions that were found (`Moves`). Its tree stays as it is, and
where the segments below each route are different, every transition that is found, and so the current route, goes to a
route that some segments lead to (`hasLineage_of_moves`).
-/

namespace Routing

namespace Branch

/-- A place is found by fetching where the segments below each route are different. -/
theorem exists_fetch_of_mem_placesAmong {above : List Route} {route : Route} {branches : List Branch}
    (h : Apart branches) {p : Place} (hp : p ∈ placesAmong (above ++ [route]) branches) :
    ∃ segment ∈ segments branches, ∃ names, (node route branches).fetch above (segment :: names) = .ok p := by
  induction branches using branches_induction generalizing above route with
  | nil => simp [placesAmong] at hp
  | cons first children rest ihc ih =>
    rw [Apart] at h
    rw [placesAmong, List.mem_append, List.mem_cons] at hp
    have hnamed : named first.segment (node first children :: rest) = some (node first children) := by
      rw [named_cons]
      exact if_pos rfl
    rcases hp with hp | rfl | hp
    · obtain ⟨segment, -, names, hfetch⟩ := ihc h.2.1 hp
      refine ⟨first.segment, List.mem_cons_self, segment :: names, ?_⟩
      rw [fetch, Branch.children, hnamed]
      exact hfetch
    · refine ⟨first.segment, List.mem_cons_self, [], ?_⟩
      rw [fetch, Branch.children, hnamed]
      rfl
    · obtain ⟨segment, hsegment, names, hfetch⟩ := ih h.2.2 hp
      refine ⟨segment, List.mem_cons_of_mem _ hsegment, names, ?_⟩
      have hother : first.segment ≠ segment := by
        rintro rfl
        exact h.1 hsegment
      rw [fetch, Branch.children, named_cons, Branch.route, if_neg hother]
      exact hfetch

theorem exists_fetch_of_mem_postOrder {b : Branch} (h : Apart b.children) {p : Place} (hp : p ∈ b.postOrder) :
    ∃ names, b.fetch [] names = .ok p := by
  obtain ⟨route, children⟩ := b
  rw [postOrder, placesAmong, placesAmong, List.mem_append, List.mem_singleton] at hp
  rcases hp with hp | rfl
  · obtain ⟨segment, -, names, hfetch⟩ := exists_fetch_of_mem_placesAmong h hp
    exact ⟨_, hfetch⟩
  · exact ⟨[], rfl⟩

end Branch

namespace Tree

open Branch

/-- Whether some routes are those down to one that segments lead to. -/
def HasLineage (t : Tree) (lineage : Lineage) : Prop := ∃ n v, t.root.view n = some v ∧ v.1 = lineage

theorem hasLineage_of_fetch {t : Tree} {names : List Text} {p : Place} (h : t.root.fetch [] names = .ok p) :
    t.HasLineage p.lineage :=
  ⟨names, (p.lineage, segments p.branch.children), view_eq_some_iff.mpr ⟨p, h, rfl, rfl⟩, rfl⟩

theorem hasLineage_of_matchPath {t : Tree} (ht : Apart t.root.children) {path : Text} {query given : Mapping Value}
    {m : Matched} (h : (t.root.matchPath path query given).outcome = .ok (some m)) :
    t.HasLineage (m.above ++ [m.route]) := by
  obtain ⟨p, hp, found, -, hmatched⟩ := place_of_matchPath h
  obtain ⟨names, hfetch⟩ := exists_fetch_of_mem_postOrder ht hp
  rw [Selection.lineage_of_matched hmatched]
  exact hasLineage_of_fetch hfetch

end Tree

namespace Router

open Branch

/-- Redirections lead to routes that segments lead to. -/
theorem hasLineage_of_followFrom {tree : Tree} {fuel : Nat} {seen : List Text} {route : Route}
    {lineage target : Lineage} (h : followFrom tree fuel seen route lineage = .ok target)
    (hlineage : tree.HasLineage lineage) : tree.HasLineage target := by
  rcases end_of_followFrom h with ⟨-, rfl⟩ | ⟨name, p, hp, -, rfl⟩
  · exact hlineage
  · obtain ⟨names, -, hfetch⟩ := Pattern.bind_eq_ok.mp hp
    exact Tree.hasLineage_of_fetch hfetch

/-- What some searches and commits make of a router, with the transitions that were found. -/
inductive Moves (start : Router) : Router → List Transition → Prop
  | start : Moves start start []
  | search {r found location t} (hr : Moves start r found) (h : (r.matchLocation location).outcome = .ok (some t)) :
    Moves start r (t :: found)
  | commit {r found t} (hr : Moves start r found) (ht : t ∈ found) : Moves start (r.commit t) found

variable {start r : Router} {found : List Transition}

theorem tree_of_moves (h : start.Moves r found) : r.tree = start.tree := by
  induction h with
  | start => rfl
  | search _ _ ih => exact ih
  | commit _ _ ih => exact ih

/-- All along the moves of a router without a current route at first, the current route is one that segments lead to. -/
theorem hasLineage_of_moves (htree : Apart start.tree.root.children) (hcurrent : start.current = none)
    (h : start.Moves r found) : (∀ t ∈ found, start.tree.HasLineage t.target) ∧
      ∀ lineage, r.current = some lineage → start.tree.HasLineage lineage := by
  induction h with
  | start => exact ⟨nofun, by simp [hcurrent]⟩
  | search hr h ih =>
    refine ⟨List.forall_mem_cons.mpr ⟨?_, ih.1⟩, ih.2⟩
    obtain ⟨m, hm, htarget, -⟩ := matchLocation_eq_ok.mp h
    rw [tree_of_moves hr] at hm htarget
    exact hasLineage_of_followFrom htarget (Tree.hasLineage_of_matchPath htree hm)
  | commit _ ht ih =>
    refine ⟨ih.1, ?_⟩
    intro lineage hlineage
    obtain rfl := Option.some.inj hlineage
    exact ih.1 _ ht

end Router

end Routing
