import Mathlib.Data.List.Sort
import Routing.Proofs.Router.Renumbering
import Routing.Proofs.Table.Listing

/-!
# The order of a table

Only the order among siblings matters in a table. Two tables with the same definitions, in which every parent comes
before its children and the definitions with the same parent come in the same order, make routers that are the same but
for the numbers of their routes, or both make none (`build_of_sameSiblings`).
-/

namespace Routing

section Lists

variable {α : Type}

theorem not_sublist_swap {l : List α} (hl : l.Nodup) {a b : α} (h : [a, b].Sublist l) : ¬ [b, a].Sublist l := by
  induction l with
  | nil => cases h
  | cons c l ih =>
    rw [List.nodup_cons] at hl
    intro hswap
    rcases List.sublist_cons_iff.mp h with h | ⟨m, hm, h⟩
    · rcases List.sublist_cons_iff.mp hswap with hswap | ⟨m, hm, -⟩
      · exact ih hl.2 h hswap
      · rw [(List.cons.inj hm).1] at h
        exact hl.1 (h.subset (List.mem_cons_of_mem _ List.mem_cons_self))
    · obtain ⟨rfl, rfl⟩ := List.cons.inj hm
      rcases List.sublist_cons_iff.mp hswap with hswap | ⟨m, hm, hswap⟩
      · exact hl.1 (hswap.subset (List.mem_cons_of_mem _ List.mem_cons_self))
      · rw [(List.cons.inj hm).1] at h
        exact hl.1 (h.subset List.mem_cons_self)

/-- Two lists of the same different elements are the same if every two elements come in the same order in both. -/
theorem eq_of_perm_of_sublist {l m : List α} (hl : l.Nodup) (hperm : l.Perm m)
    (h : ∀ a b, [a, b].Sublist l → [a, b].Sublist m) : l = m := by
  have hm := hperm.nodup_iff.mp hl
  have hpairs : l.Pairwise fun a b => [a, b].Sublist m := List.pairwise_iff_forall_sublist.mpr fun hab => h _ _ hab
  have hpairs' : m.Pairwise fun a b => [a, b].Sublist m := List.pairwise_iff_forall_sublist.mpr fun hab => hab
  refine List.Perm.eq_of_pairwise ?_ hpairs hpairs' hperm
  intro a b _ _ hab hba
  exact absurd hba (not_sublist_swap hm hab)

end Lists

namespace Table

/-- Whether no definition comes after its parent's children. -/
def ParentsFirst (t : Table) : Prop := t.routes.Pairwise fun d e => e.address ≠ d.parent

/-- Whether two tables have the same base path and the same definitions, and every two of them with the same parent come
in the same order. -/
structure SameSiblings (t u : Table) : Prop where
  basePath : t.basePath = u.basePath
  perm : t.routes.Perm u.routes
  order : ∀ d e, d.parent = e.parent → ([d, e].Sublist t.routes ↔ [d, e].Sublist u.routes)

variable {t u : Table}

theorem SameSiblings.symm (h : t.SameSiblings u) : u.SameSiblings t :=
  ⟨h.basePath.symm, h.perm.symm, fun d e hsame => (h.order d e hsame).symm⟩

theorem SameSiblings.filter_eq (h : t.SameSiblings u) (hdistinct : (t.routes.map Definition.name).Nodup)
    (n : List Text) : t.routes.filter (·.parent = n) = u.routes.filter (·.parent = n) := by
  have hnodup : t.routes.Nodup := List.Nodup.of_map _ hdistinct
  refine eq_of_perm_of_sublist (hnodup.filter _) (h.perm.filter _) ?_
  intro d e hde
  have hmem : ∀ f ∈ [d, e], f.parent = n := by
    intro f hf
    exact of_decide_eq_true (List.mem_filter.mp (hde.subset hf)).2
  have hparent : d.parent = e.parent := (hmem d (by simp)).trans (hmem e (by simp)).symm
  have hsublist := (h.order d e hparent).mp (hde.trans List.filter_sublist)
  have hfilter := hsublist.filter (·.parent = n)
  rwa [List.filter_eq_self.mpr fun f hf => decide_eq_true (hmem f hf)] at hfilter

theorem sameSiblings_of_filter (hbase : t.basePath = u.basePath) (hperm : t.routes.Perm u.routes)
    (h : ∀ n, t.routes.filter (·.parent = n) = u.routes.filter (·.parent = n)) : t.SameSiblings u := by
  have hforward : ∀ {l m : List Definition} {d e : Definition}, d.parent = e.parent →
      (∀ n, l.filter (·.parent = n) = m.filter (·.parent = n)) → [d, e].Sublist l → [d, e].Sublist m := by
    intro l m d e hparent hfilter hsublist
    have hpair := hsublist.filter (·.parent = e.parent)
    rw [List.filter_eq_self.mpr (by simp [hparent]), hfilter] at hpair
    exact hpair.trans List.filter_sublist
  refine ⟨hbase, hperm, ?_⟩
  intro d e hparent
  exact ⟨hforward hparent h, hforward hparent fun n => (h n).symm⟩

/-- Two neighbours with different parents may change places. -/
theorem sameSiblings_swap (base : Option Text) (before after : List Definition) {d e : Definition}
    (h : d.parent ≠ e.parent) :
    SameSiblings ⟨base, before ++ d :: e :: after⟩ ⟨base, before ++ e :: d :: after⟩ := by
  refine sameSiblings_of_filter rfl ((List.Perm.swap e d after).append_left before) ?_
  intro n
  rw [List.filter_append, List.filter_append]
  congr 1
  by_cases hd : d.parent = n
  · have he : e.parent ≠ n := fun he => h (hd.trans he.symm)
    simp [hd, he]
  · simp [List.filter_cons, hd]

/-- Definitions with different names have different addresses. -/
theorem eq_of_address_eq (hdistinct : (t.routes.map Definition.name).Nodup) :
    ∀ d ∈ t.routes, ∀ e ∈ t.routes, d.address = e.address → d = e :=
  fun _ hd _ he hsame => List.inj_on_of_nodup_map hdistinct hd he (Definition.name_eq_of_address_eq hsame)

theorem nodup_addresses (hdistinct : (t.routes.map Definition.name).Nodup) :
    (t.routes.map Definition.address).Nodup :=
  List.Nodup.map_on (fun _ hd _ he hsame => eq_of_address_eq hdistinct _ hd _ he hsame) (List.Nodup.of_map _ hdistinct)

/-- What the tree of a valid table with different names is made of. -/
structure Made (t : Table) (settings : Settings) (start : Tree) (r : Router) : Prop where
  router : r = { settings, basePath := settings.base t.basePath, tree := r.tree }
  root : r.tree.root.route = start.root.route
  built : Built r.tree
  named : r.tree.WellNamed
  lists : r.tree.Lists t.routes

theorem made_of_build {settings : Settings} {r : Router} (ht : t.IsValid)
    (hdistinct : (t.routes.map Definition.name).Nodup) (h : (t.build settings).outcome = .ok r) :
    ∃ start, (Tree.create (givenOr none settings.delimiter)).outcome = .ok start ∧ t.Made settings start r := by
  obtain ⟨start, hstart, hadded⟩ := build_eq_ok.mp h
  have hstep : ∀ d ∈ t.routes, ∀ t u : Tree, Built t ∧ t.root.route = start.root.route →
      (t.add (.dotted d.name) d.spec).outcome = .ok u → Built u ∧ u.root.route = start.root.route := by
    rintro d - t' u ⟨hbuilt, hroot⟩ hadd
    exact ⟨hbuilt.add hadd, (Tree.route_of_add hadd).trans hroot⟩
  obtain ⟨⟨hbuilt, hroot⟩, hr⟩ := exists_of_addAll hstep hadded ⟨.create hstart, rfl⟩
  have hlists := lists_of_addAll (Tree.lists_create hstart) ht (by simpa using nodup_addresses hdistinct) hadded
  exact ⟨start, hstart, hr, hroot, hbuilt, (wellNamed_of_build ht h).1, hlists⟩

/-- If a table makes a router, its definitions can be added in any other order in which no definition comes after its
parent's children. -/
theorem Made.exists_addAll {settings : Settings} {start : Tree} {r s : Router} (hr : t.Made settings start r)
    (hdistinct : (t.routes.map Definition.name).Nodup) {before rest : List Definition}
    (hperm : t.routes.Perm (before ++ rest)) (hnamed : ∀ d ∈ rest, d.IsNamed)
    (hparents : rest.Pairwise fun d e => e.address ≠ d.parent) (hs : s.tree.Lists before)
    (hroot : s.tree.root.route = start.root.route) : ∃ s', (addAll s rest).outcome = .ok s' := by
  induction rest generalizing before s with
  | nil => exact ⟨s, rfl⟩
  | cons d rest ih =>
    obtain ⟨hd, hrest⟩ := List.forall_mem_cons.mp hnamed
    rw [List.pairwise_cons] at hparents
    have hsubset : before ⊆ t.routes := fun e he => hperm.mem_iff.mpr (List.mem_append_left _ he)
    have hparent : ∀ e ∈ t.routes, e.address = d.parent → e ∈ before := by
      intro e he haddress
      rcases List.mem_append.mp (hperm.mem_iff.mp he) with hbefore | hafter
      · exact hbefore
      · rcases List.mem_cons.mp hafter with rfl | hafter
        · exact absurd (haddress ▸ List.prefix_refl _) e.not_address_prefix_parent
        · exact absurd haddress (hparents.1 e hafter)
    have hmem : d ∈ t.routes := hperm.mem_iff.mpr (List.mem_append_right _ List.mem_cons_self)
    obtain ⟨tree, htree⟩ := hr.lists.exists_add hs (hr.root.trans hroot.symm) hsubset (eq_of_address_eq hdistinct) hmem
      hd hparent
    have hnew : d.address ∉ before.map Definition.address := by
      have hnodup := (hperm.map Definition.address).nodup_iff.mp (nodup_addresses hdistinct)
      intro hmem
      rw [List.map_append, List.map_cons] at hnodup
      exact (List.nodup_append.mp hnodup).2.2 _ hmem _ List.mem_cons_self rfl
    have hlists : tree.Lists (before ++ [d]) := hs.add hd hnew htree
    rw [List.append_cons] at hperm
    obtain ⟨s', hs'⟩ := ih (s := { s with tree }) hperm hrest hparents.2 hlists ((Tree.route_of_add htree).trans hroot)
    exact ⟨s', addAll_cons_eq_ok.mpr ⟨tree, htree, hs'⟩⟩

/-- Where one table makes a router, another one with the same siblings makes one as well, which is the same but for the
numbers of its routes. -/
theorem exists_renumber_of_build {settings : Settings} {r : Router} (h : t.SameSiblings u) (ht : t.IsValid)
    (hu : u.IsValid) (hdistinct : (t.routes.map Definition.name).Nodup) (hparents : u.ParentsFirst)
    (hr : (t.build settings).outcome = .ok r) :
    ∃ (s : Router) (σ : Equiv.Perm Nat), (u.build settings).outcome = .ok s ∧ s = r.renumber σ := by
  have hdistinct' : (u.routes.map Definition.name).Nodup := (h.perm.map _).nodup_iff.mp hdistinct
  obtain ⟨start, hstart, hmade⟩ := made_of_build ht hdistinct hr
  have hperm : t.routes.Perm ([] ++ u.routes) := h.perm
  obtain ⟨s, hs⟩ := hmade.exists_addAll hdistinct hperm hu hparents
    (s := { settings, basePath := settings.base u.basePath, tree := start }) (Tree.lists_create hstart) rfl
  have hbuild : (u.build settings).outcome = .ok s := build_eq_ok.mpr ⟨start, hstart, hs⟩
  obtain ⟨start', hstart', hmade'⟩ := made_of_build hu hdistinct' hbuild
  obtain rfl : start = start' := Except.ok.inj (hstart.symm.trans hstart')
  have hsame : r.tree.root.unnumbered = s.tree.root.unnumbered := by
    refine hmade.lists.unnumbered_eq hmade'.lists (hmade.root.trans hmade'.root.symm) ?_ h.perm
      (h.filter_eq hdistinct) hmade.named.apart hmade'.named.apart
    intro d hd e he
    exact eq_of_address_eq hdistinct d hd e (h.perm.mem_iff.mpr he)
  obtain ⟨σ, hσ⟩ := Branch.exists_renumber (numbered_of_built hmade.built).nodup (numbered_of_built hmade'.built).nodup
    hsame
  have htree : s.tree = r.tree.renumber σ := by
    have hnext : s.tree.next = r.tree.next := by rw [hmade.lists.next, hmade'.lists.next, h.perm.length_eq]
    rw [Tree.renumber, hσ, ← hnext]
  refine ⟨s, σ, hbuild, ?_⟩
  calc s = { settings, basePath := settings.base u.basePath, tree := s.tree } := hmade'.router
    _ = Router.renumber σ { settings, basePath := settings.base t.basePath, tree := r.tree } := by
      rw [htree, ← h.basePath]
      rfl
    _ = r.renumber σ := by rw [← hmade.router]

/-- Two tables with the same siblings, in which no definition comes after its parent's children, both make no router, or
they make routers that are the same but for the numbers of their routes. These list routes with the same names,
patterns, contents and defaults in the same order. After the same searches and commits they find the same transitions
and write the same links. And transitions keep, leave and enter the same routes. -/
theorem build_of_sameSiblings {settings : Settings} (h : t.SameSiblings u) (ht : t.IsValid) (hu : u.IsValid)
    (hdistinct : (t.routes.map Definition.name).Nodup) (htparents : t.ParentsFirst) (huparents : u.ParentsFirst) :
    ((∃ e, (t.build settings).outcome = .error e) ∧ ∃ e, (u.build settings).outcome = .error e) ∨
    ∃ (r s : Router) (σ : Equiv.Perm Nat), (t.build settings).outcome = .ok r ∧ (u.build settings).outcome = .ok s ∧
      (s.tree.root.walk.map fun x => (x.name, x.pattern, x.content, x.defaults)) =
        (r.tree.root.walk.map fun x => (x.name, x.pattern, x.content, x.defaults)) ∧
      (∀ name, s.tree.fetch name = (r.tree.fetch name).map (Place.renumber σ)) ∧
      (∀ r' found, r.Moves r' found → ∃ s', s.Moves s' (found.map (Transition.renumber σ)) ∧
        (∀ location, (s'.matchLocation location).outcome =
          (r'.matchLocation location).outcome.map (Option.map (Transition.renumber σ))) ∧
        ∀ name params query o, s'.link name params query o = r'.link name params query o) ∧
      ∀ (step : Transition) settings' before,
        ((step.renumber σ).junctionIndex settings' before).outcome = (step.junctionIndex settings' before).outcome ∧
        ((step.renumber σ).disabled settings' before).outcome =
          (step.disabled settings' before).outcome.map (List.map (Route.renumber σ)) ∧
        ((step.renumber σ).enabled settings' before).outcome =
          (step.enabled settings' before).outcome.map (List.map (Route.renumber σ)) ∧
        ((step.renumber σ).junction settings' before).outcome =
          (step.junction settings' before).outcome.map (Option.map (Route.renumber σ)) := by
  have hdistinct' : (u.routes.map Definition.name).Nodup := (h.perm.map _).nodup_iff.mp hdistinct
  cases hr : (t.build settings).outcome with
  | error e =>
    cases hs : (u.build settings).outcome with
    | error e' => exact Or.inl ⟨⟨e, rfl⟩, e', rfl⟩
    | ok s =>
      obtain ⟨r, -, hr', -⟩ := exists_renumber_of_build h.symm hu ht hdistinct' htparents hs
      cases hr.symm.trans hr'
  | ok r =>
    obtain ⟨s, σ, hs, rfl⟩ := exists_renumber_of_build h ht hu hdistinct huparents hr
    refine Or.inr ⟨r, r.renumber σ, σ, rfl, hs, ?_, r.tree.fetch_renumber σ, ?_, ?_⟩
    · show ((r.tree.renumber σ).root.walk.map _) = _
      rw [Tree.walk_renumber, List.map_map]
      rfl
    · intro r' found hmoves
      exact ⟨r'.renumber σ, Router.moves_renumber σ hmoves, r'.outcome_matchLocation_renumber σ, r'.link_renumber σ⟩
    · intro step settings' before
      exact ⟨Transition.outcome_junctionIndex_renumber σ.injective step settings' before,
        Transition.outcome_disabled_renumber σ.injective step settings' before,
        Transition.outcome_enabled_renumber σ.injective step settings' before,
        Transition.outcome_junction_renumber σ.injective step settings' before⟩

/-- The routes `a`, `a.x` and `b`, and the same with `b` before `a.x`: both tables make routers, in which the routes are
listed in the same order and are found by the same names. -/
theorem cousins_change_places : ∃ t u : Table, t.SameSiblings u ∧ t.IsValid ∧ u.IsValid ∧
    (t.routes.map Definition.name).Nodup ∧ t.ParentsFirst ∧ u.ParentsFirst ∧
    t.routes.map Definition.name = ["a".toList, "a.x".toList, "b".toList] ∧
    u.routes.map Definition.name = ["a".toList, "b".toList, "a.x".toList] ∧
    ∃ r s, (t.build {}).outcome = .ok r ∧ (u.build {}).outcome = .ok s ∧
      r.tree.root.walk.map Route.name = ["a".toList, "a.x".toList, "b".toList] ∧
      (s.tree.root.walk.map fun x => (x.name, x.pattern, x.content, x.defaults)) =
        (r.tree.root.walk.map fun x => (x.name, x.pattern, x.content, x.defaults)) ∧
      ∃ σ : Equiv.Perm Nat, ∀ name, s.tree.fetch name = (r.tree.fetch name).map (Place.renumber σ) := by
  let a : Definition := { name := "a".toList, pattern := "p".toList }
  let x : Definition := { name := "a.x".toList, pattern := "q".toList }
  let b : Definition := { name := "b".toList, pattern := "r".toList }
  let t : Table := ⟨none, [a] ++ x :: b :: []⟩
  let u : Table := ⟨none, [a] ++ b :: x :: []⟩
  have hsame : t.SameSiblings u := sameSiblings_swap none [a] [] (by decide)
  have ht : t.IsValid := by
    show ∀ d ∈ t.routes, ∀ s ∈ d.address, s ≠ []
    decide
  have hu : u.IsValid := by
    show ∀ d ∈ u.routes, ∀ s ∈ d.address, s ≠ []
    decide
  have hdistinct : (t.routes.map Definition.name).Nodup := by decide
  have htparents : t.ParentsFirst := by
    show t.routes.Pairwise fun d e => e.address ≠ d.parent
    decide
  have huparents : u.ParentsFirst := by
    show u.routes.Pairwise fun d e => e.address ≠ d.parent
    decide
  have hrun : (t.build {}).Gives fun r =>
      r.tree.root.walk.map Route.name = ["a".toList, "a.x".toList, "b".toList] := by
    cbv
  obtain ⟨r, hr, hwalk⟩ := Traced.exists_of_gives hrun
  rcases @build_of_sameSiblings t u {} hsame ht hu hdistinct htparents huparents with
    ⟨⟨e, he⟩, -⟩ | ⟨r', s, σ, hr', hs, hlisted, hfetch, -⟩
  · cases hr.symm.trans he
  · obtain rfl : r = r' := Except.ok.inj (hr.symm.trans hr')
    exact ⟨t, u, hsame, ht, hu, hdistinct, htparents, huparents, rfl, rfl, r, s, hr, hs, hwalk, hlisted, σ, hfetch⟩

end Table

end Routing
