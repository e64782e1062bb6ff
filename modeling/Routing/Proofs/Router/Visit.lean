import Routing.Proofs.Router.Junction
import Routing.Proofs.Router.Search

/-!
# Visits

A visit is a router in use: locations are searched, transitions that were found are committed, and routes are added
in between. The active routes are kept on a stack. At each commit the routes that the transition leaves are taken off
it, and those that it enters are put on it. The stack is always the chain of the current route
(`active_eq_chain`).
-/

namespace Routing

/-- Takes routes off the end of a stack, one after the other, if each of them is at its end then. -/
def popAll (stack : List Route) : List Route → Option (List Route)
  | [] => some stack
  | r :: rest => if stack.getLast?.map Route.id = some r.id then popAll stack.dropLast rest else none

/-- A router in use. -/
structure Visit where
  router : Router
  /-- What the last search since the last commit found. -/
  offered : Option Transition := none
  /-- The active routes, the deepest one last. -/
  active : List Route := []

/-- The visits of a router that nothing is active in at first. What fails leaves a visit as it is. -/
inductive Visit.Runs (start : Router) : Visit → Prop
  | start : Runs start { router := start }
  | add {v router name spec} (hv : Runs start v) (h : (v.router.add name spec).outcome = .ok router) :
    Runs start { v with router }
  | addBelow {v tree names name spec} (hv : Runs start v)
    (h : (v.router.tree.addBelow names name spec).outcome = .ok tree) :
    Runs start { v with router := { v.router with tree } }
  | search {v location found} (hv : Runs start v) (h : (v.router.matchLocation location).outcome = .ok found) :
    Runs start { v with offered := found }
  | commit {v t settings before left entered kept} (hv : Runs start v) (hoffered : v.offered = some t)
    (hleft : (t.disabled settings before).outcome = .ok left)
    (hentered : (t.enabled settings before).outcome = .ok entered) (hkept : popAll v.active left = some kept) :
    Runs start { router := v.router.commit t, active := kept ++ entered }

namespace Visit

/-- The routes of the current chain. -/
def chain (v : Visit) : Lineage := v.router.current.getD []

/-- Whether a visit keeps to some routes, which are told from each other by their numbers: the tree has no other
routes, the current chain has none, and neither has what is offered, which starts at the current route. -/
structure KeepsTo (v : Visit) (seen : List Route) : Prop where
  distinct : ∀ r ∈ seen, ∀ s ∈ seen, r.id = s.id → r = s
  lt_next : ∀ r ∈ seen, r.id < v.router.tree.next
  tree : v.router.tree.root.routes ⊆ seen
  chain : v.chain ⊆ seen
  offered : ∀ t, v.offered = some t → t.source = v.router.current ∧ t.target ⊆ seen

theorem popAll_append (kept left : List Route) : popAll (kept ++ left) left.reverse = some kept := by
  induction left using List.reverseRecOn with
  | nil => simp [popAll]
  | append_singleton left r ih =>
    rw [List.reverse_append, List.reverse_singleton, List.singleton_append, popAll, ← List.append_assoc]
    simpa using ih

variable {v : Visit} {seen : List Route}

/-- Where a route is added, one more route is seen. -/
theorem KeepsTo.grow (h : v.KeepsTo seen) {tree : Tree} (htree : v.router.tree.AddsOne tree) :
    ∃ r, KeepsTo { v with router := { v.router with tree } } (r :: seen) := by
  obtain ⟨hnext, r, hid, hroutes⟩ := htree
  have hnew : ∀ s ∈ seen, s.id ≠ r.id := fun s hs => hid ▸ Nat.ne_of_lt (h.lt_next s hs)
  refine ⟨r, ?_, ?_, ?_, ?_, ?_⟩
  · intro s hs u hu hsame
    rcases List.mem_cons.mp hs with hs | hs <;> rcases List.mem_cons.mp hu with hu | hu
    · rw [hs, hu]
    · exact absurd (hs ▸ hsame.symm) (hnew u hu)
    · exact absurd (hu ▸ hsame) (hnew s hs)
    · exact h.distinct s hs u hu hsame
  · simp only [List.forall_mem_cons, hnext, hid]
    exact ⟨Nat.lt_succ_self _, fun s hs => Nat.lt_succ_of_lt (h.lt_next s hs)⟩
  · exact fun s hs => List.cons_subset_cons r h.tree (hroutes.subset hs)
  · exact List.subset_cons_of_subset r h.chain
  · intro t ht
    exact ⟨(h.offered t ht).1, List.subset_cons_of_subset r (h.offered t ht).2⟩

/-- What committing the transition that is offered does to the stack, if the stack is the current chain: the routes to
leave are at its end, what is below them is the longest beginning that the chains share, and with the routes to enter
the stack is the new chain. -/
theorem KeepsTo.commit (h : v.KeepsTo seen) (hactive : v.active = v.chain) {t : Transition} {settings : Settings}
    {before : Mapping Value} {left entered : List Route} (hoffered : v.offered = some t)
    (hleft : (t.disabled settings before).outcome = .ok left)
    (hentered : (t.enabled settings before).outcome = .ok entered) :
    ∃ kept, popAll v.active left = some kept ∧ kept ++ entered = t.target ∧ kept <+: v.chain ∧ kept <+: t.target ∧
      IsGreatest {n | t.Shares settings before n} kept.length := by
  obtain ⟨hsource, htarget⟩ := h.offered t hoffered
  obtain ⟨k, hk, rfl⟩ := Transition.disabled_eq_ok.mp hleft
  obtain ⟨k', hk', rfl⟩ := Transition.enabled_eq_ok.mp hentered
  obtain rfl : k = k' := Except.ok.inj (hk.symm.trans hk')
  have hchain : t.source.getD [] = v.chain := by rw [hsource, Visit.chain]
  have hgreatest := Transition.isGreatest_of_junctionIndex hk
  have hshares : t.SharesAmong settings before v.chain t.target k := hchain ▸ hgreatest.1
  have hsame : v.chain.take k = t.target.take k := hshares.take_eq fun r hr s hs =>
    h.distinct r (h.chain hr) s (htarget hs)
  have hlength : (v.chain.take k).length = k := by
    have := hshares.1
    simp only [List.length_zip] at this
    rw [List.length_take]
    omega
  refine ⟨v.chain.take k, ?_, ?_, List.take_prefix _ _, hsame ▸ List.take_prefix _ _, hlength.symm ▸ hgreatest⟩
  · rw [hactive, hchain]
    nth_rewrite 1 [← List.take_append_drop k v.chain]
    exact popAll_append _ _
  · rw [hsame, List.take_append_drop]

/-- What holds all along a visit. -/
theorem exists_keepsTo {start : Router} (htree : Built start.tree) (hcurrent : start.current = none)
    (hv : Runs start v) : v.active = v.chain ∧ ∃ seen, v.KeepsTo seen := by
  induction hv with
  | start =>
    have hnumbered := numbered_of_built htree
    refine ⟨by simp [chain, hcurrent], start.tree.root.routes, ?_, hnumbered.lt_next, List.Subset.refl _, ?_, ?_⟩
    · exact fun r hr s hs => List.inj_on_of_nodup_map hnumbered.nodup hr hs
    · simp [chain, hcurrent]
    · intro t ht
      cases ht
  | add _ h ih =>
    obtain ⟨hactive, seen, hseen⟩ := ih
    obtain ⟨tree, hadd, h⟩ := Traced.bind_outcome_eq_ok.mp h
    obtain ⟨r, hgrown⟩ := hseen.grow (Tree.addsOne_of_add hadd)
    rw [← Except.ok.inj h]
    exact ⟨hactive, r :: seen, hgrown⟩
  | addBelow _ h ih =>
    obtain ⟨hactive, seen, hseen⟩ := ih
    obtain ⟨r, hgrown⟩ := hseen.grow (Tree.addsOne_of_addBelow h)
    exact ⟨hactive, r :: seen, hgrown⟩
  | search _ h ih =>
    obtain ⟨hactive, seen, hseen⟩ := ih
    refine ⟨hactive, seen, { hseen with offered := ?_ }⟩
    rintro t rfl
    obtain ⟨hsource, htarget⟩ := Router.matchLocation_eq_some h
    exact ⟨hsource, List.Subset.trans htarget hseen.tree⟩
  | commit _ hoffered hleft hentered hkept ih =>
    obtain ⟨hactive, seen, hseen⟩ := ih
    obtain ⟨kept', hkept', hchain, -⟩ := hseen.commit hactive hoffered hleft hentered
    obtain rfl : kept' = _ := Option.some.inj (hkept'.symm.trans hkept)
    refine ⟨hchain, seen, { hseen with chain := (hseen.offered _ hoffered).2, offered := ?_ }⟩
    intro t ht
    cases ht

/-- All along a visit the stack is the chain of the current route. At a commit the routes to leave are at its end, one
after the other; what is then left of it is the longest beginning that the old and the new chain share; and with the
routes to enter it is the chain of the new current route. -/
theorem active_eq_chain {start : Router} (htree : Built start.tree) (hcurrent : start.current = none)
    (hv : Runs start v) : v.active = v.chain ∧ ∀ t settings before left entered, v.offered = some t →
      (t.disabled settings before).outcome = .ok left → (t.enabled settings before).outcome = .ok entered →
      ∃ kept, popAll v.active left = some kept ∧ kept ++ entered = t.target ∧ kept <+: v.chain ∧ kept <+: t.target ∧
        IsGreatest {n | t.Shares settings before n} kept.length := by
  obtain ⟨hactive, seen, hseen⟩ := exists_keepsTo htree hcurrent hv
  exact ⟨hactive, fun _ _ _ _ _ hoffered hleft hentered => hseen.commit hactive hoffered hleft hentered⟩

/-- The routes `a` and, below it, `a.b` are entered. Then a route `a.c` is added, and when it is searched, `a.b` is left
for it and the root and `a` are kept. -/
theorem sibling_replaces_sibling :
    ∃ start v t left entered kept, Built start.tree ∧ start.current = none ∧ Runs start v ∧ v.offered = some t ∧
      (t.disabled {} .empty).outcome = .ok left ∧ (t.enabled {} .empty).outcome = .ok entered ∧
      v.active.map Route.name = [[], "a".toList, "a.b".toList] ∧ popAll v.active left = some kept ∧
      kept ++ entered = t.target ∧ IsGreatest {n | t.Shares {} .empty n} kept.length ∧ kept.length = 2 := by
  have hrun : (Router.create {} none none).Gives fun start => start.current = none ∧
      (start.add (.dotted "a".toList) { pattern := "x".toList }).Gives fun r =>
      (r.add (.dotted "a.b".toList) { pattern := "y".toList }).Gives fun r =>
      (r.matchLocation "/x/y".toList).Gives fun found => found.elim False fun t =>
      t.source = none ∧ t.target.map Route.name = [[], "a".toList, "a.b".toList] ∧
      ((r.commit t).add (.dotted "a.c".toList) { pattern := "\x7bi:\\d\x7d".toList }).Gives fun r =>
      (r.matchLocation "/x/4".toList).Gives fun found => found.elim False fun t =>
      (t.common {} .empty (t.source.getD []) t.target).Gives fun k => k = 2 := by
    cbv
  obtain ⟨start, hstart, hcurrent, hrun⟩ := Traced.exists_of_gives hrun
  obtain ⟨r₁, ha, hrun⟩ := Traced.exists_of_gives hrun
  obtain ⟨r₂, hb, hrun⟩ := Traced.exists_of_gives hrun
  obtain ⟨_ | t₁, hfirst, hrun⟩ := Traced.exists_of_gives hrun
  · exact hrun.elim
  obtain ⟨hsource, hnames, hrun⟩ := hrun
  obtain ⟨r₃, hc, hrun⟩ := Traced.exists_of_gives hrun
  obtain ⟨_ | t₂, hsecond, hrun⟩ := Traced.exists_of_gives hrun
  · exact hrun.elim
  obtain ⟨k, hcommon, rfl⟩ := Traced.exists_of_gives hrun
  have hbuilt : Built start.tree := by
    obtain ⟨tree, htree, hstart⟩ := Traced.bind_outcome_eq_ok.mp hstart
    rw [← Except.ok.inj hstart]
    exact .create htree
  -- the first transition leaves nothing and enters all of its target
  have hzero : (t₁.junctionIndex {} .empty).outcome = .ok 0 := by
    rw [Transition.outcome_junctionIndex, hsource]
    rfl
  have hentered := Runs.commit (((Runs.start.add ha).add hb).search hfirst) rfl
    (Transition.disabled_eq_ok.mpr ⟨0, hzero, by rw [hsource]⟩)
    (Transition.enabled_eq_ok.mpr ⟨0, hzero, rfl⟩) rfl
  have hv := (hentered.add hc).search hsecond
  have htwo : (t₂.junctionIndex {} .empty).outcome = .ok 2 := by rw [Transition.outcome_junctionIndex, hcommon]
  have hleft := Transition.disabled_eq_ok.mpr ⟨2, htwo, rfl⟩
  have henter := Transition.enabled_eq_ok.mpr ⟨2, htwo, rfl⟩
  obtain ⟨kept, hkept, hchain, -, -, hgreatest⟩ :=
    (active_eq_chain hbuilt hcurrent hv).2 t₂ {} .empty _ _ rfl hleft henter
  exact ⟨start, _, t₂, _, _, kept, hbuilt, hcurrent, hv, rfl, hleft, henter, hnames, hkept, hchain, hgreatest,
    hgreatest.unique (Transition.isGreatest_of_junctionIndex htwo)⟩

end Visit

end Routing
