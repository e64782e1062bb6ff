import Routing.Proofs.Router.Junction
import Routing.Proofs.Router.Search

/-!
# The sharing of states

A state is a route, given by its chain, with parameters. What two states share is what the transition from one to the
other keeps. Sharing does not depend on the direction, and the direct transition between two states keeps what those
over a third one keep (`shared_ultrametric`).
-/

namespace Routing

/-- Whether routes are told from each other by their numbers: those of one tree are, and those of several trees when
the trees number them apart. -/
def Identified (routes : List Route) : Prop :=
  ∀ r ∈ routes, ∀ s ∈ routes, r.id = s.id → r = s

theorem Identified.subset {routes more : List Route} (h : Identified more) (hsubset : routes ⊆ more) :
    Identified routes :=
  fun r hr s hs => h r (hsubset hr) s (hsubset hs)

/-- The routes of a tree that was built are told from each other by their numbers. -/
theorem identified_of_built {t : Tree} (h : Built t) : Identified t.root.routes :=
  fun _ hr _ hs => List.inj_on_of_nodup_map (numbered_of_built h).nodup hr hs

/-- A route, given by its chain from the root down, with parameters. -/
structure State where
  lineage : Lineage
  params : Mapping Value

namespace State

/-- The transition that leads from one state to another one. -/
def toward (a b : State) (scope : Option Text) : Transition :=
  { source := some a.lineage, target := b.lineage, params := b.params, scope }

variable (settings : Settings) (scope : Option Text)

/-- How many routes the transition from one state to another one keeps, where this can be told. -/
def shared (a b : State) : Except RouteError Nat :=
  ((a.toward b scope).junctionIndex settings a.params).outcome

/-- Whether a route is in the same state under the parameters of two states. -/
def Alike (a b : State) (r : Route) : Prop :=
  (a.toward b scope).SameState settings a.params r

/-- Whether the chains of two states start with the same `n` routes, each in the same state. -/
structure Share (a b : State) (n : Nat) : Prop where
  left : n ≤ a.lineage.length
  right : n ≤ b.lineage.length
  same : a.lineage.take n = b.lineage.take n
  alike : ∀ r ∈ a.lineage.take n, Alike settings scope a b r

variable {settings scope} {a b c : State} {k m n : Nat}

theorem Alike.symm {r : Route} (h : Alike settings scope a b r) : Alike settings scope b a r := by
  obtain ⟨l, hbefore, hafter⟩ := h.link
  exact ⟨fun name hname => (h.query name hname).symm, l, hafter, hbefore⟩

theorem Alike.trans {r : Route} (hab : Alike settings scope a b r) (hbc : Alike settings scope b c r) :
    Alike settings scope a c r := by
  obtain ⟨l, hbefore, hmiddle⟩ := hab.link
  obtain ⟨l', hmiddle', hafter⟩ := hbc.link
  obtain rfl : l = l' := Except.ok.inj (hmiddle.symm.trans hmiddle')
  exact ⟨fun name hname => (hab.query name hname).trans (hbc.query name hname), l, hbefore, hafter⟩

theorem Share.symm (h : Share settings scope a b n) : Share settings scope b a n :=
  ⟨h.right, h.left, h.same.symm, fun r hr => (h.alike r (h.same ▸ hr)).symm⟩

theorem Share.trans (hab : Share settings scope a b n) (hbc : Share settings scope b c n) :
    Share settings scope a c n :=
  ⟨hab.left, hbc.right, hab.same.trans hbc.same,
    fun r hr => (hab.alike r hr).trans (hbc.alike r (hab.same ▸ hr))⟩

theorem Share.mono (h : Share settings scope a b n) (hle : m ≤ n) : Share settings scope a b m := by
  refine ⟨hle.trans h.left, hle.trans h.right, ?_, fun r hr => h.alike r (List.take_subset_take_left _ hle hr)⟩
  have hsame := congrArg (List.take m) h.same
  rwa [List.take_take, List.take_take, Nat.min_eq_left hle] at hsame

/-- Where routes are told by their numbers, the routes that a transition between two states takes for the same are the
same. -/
theorem share_iff (hroutes : Identified (a.lineage ++ b.lineage)) :
    (a.toward b scope).Shares settings a.params n ↔ Share settings scope a b n := by
  have htake : (a.lineage.zip b.lineage).take n = (a.lineage.take n).zip (b.lineage.take n) := List.take_zipWith
  have hself : ∀ l : Lineage, l.zip l = l.map fun r => (r, r) := fun l => by simp [List.zip_eq_zipWith]
  constructor
  · intro h
    have hsame : a.lineage.take n = b.lineage.take n := h.take_eq fun r hr s hs =>
      hroutes r (List.mem_append_left _ hr) s (List.mem_append_right _ hs)
    obtain ⟨hle, halike⟩ := h
    rw [List.length_zip, Nat.le_min] at hle
    refine ⟨hle.1, hle.2, hsame, fun r hr => (halike (r, r) ?_).2⟩
    change (r, r) ∈ (a.lineage.zip b.lineage).take n
    rw [htake, ← hsame, hself]
    exact List.mem_map_of_mem hr
  · intro h
    refine ⟨by rw [List.length_zip]; exact Nat.le_min.mpr ⟨h.left, h.right⟩, fun p hp => ?_⟩
    change p ∈ (a.lineage.zip b.lineage).take n at hp
    rw [htake, ← h.same, hself] at hp
    obtain ⟨r, hr, rfl⟩ := List.mem_map.mp hp
    exact ⟨rfl, h.alike r hr⟩

theorem shared_eq : shared settings scope a b =
    ((a.toward b scope).common settings a.params a.lineage b.lineage).outcome :=
  Transition.outcome_junctionIndex (a.toward b scope) settings a.params

theorem isGreatest_of_shared (hroutes : Identified (a.lineage ++ b.lineage)) (h : shared settings scope a b = .ok k) :
    IsGreatest {n | Share settings scope a b n} k := by
  have hgreatest := Transition.isGreatest_of_junctionIndex h
  simpa only [share_iff hroutes] using hgreatest

/-- What two states share does not depend on the direction. -/
theorem shared_symm (hroutes : Identified (a.lineage ++ b.lineage)) (hab : shared settings scope a b = .ok m)
    (hba : shared settings scope b a = .ok n) : m = n := by
  have hroutes' : Identified (b.lineage ++ a.lineage) := hroutes.subset List.perm_append_comm.subset
  have hm := isGreatest_of_shared hroutes hab
  have hn := isGreatest_of_shared hroutes' hba
  exact Nat.le_antisymm (hn.2 hm.1.symm) (hm.2 hn.1.symm)

/-- Going there and back leaves the routes that were entered, in reverse order. -/
theorem disabled_eq_reverse_enabled (hroutes : Identified (a.lineage ++ b.lineage))
    (hab : shared settings scope a b = .ok m) (hba : shared settings scope b a = .ok n) :
    ∃ entered, ((b.toward a scope).enabled settings b.params).outcome = .ok entered ∧
      ((a.toward b scope).disabled settings a.params).outcome = .ok entered.reverse := by
  obtain rfl := shared_symm hroutes hab hba
  exact ⟨a.lineage.drop m, Transition.enabled_eq_ok.mpr ⟨m, hba, rfl⟩, Transition.disabled_eq_ok.mpr ⟨m, hab, rfl⟩⟩

/-- The direct transition between two states keeps the routes that two transitions over a third state both keep. -/
theorem mem_take_of_mem_take {r : Route} (hroutes : Identified (a.lineage ++ b.lineage ++ c.lineage))
    (hab : shared settings scope a b = .ok m) (hbc : shared settings scope b c = .ok n)
    (hac : shared settings scope a c = .ok k) : min m n ≤ k ∧
      (r ∈ a.lineage.take m → r ∈ b.lineage.take n → r ∈ a.lineage.take k) := by
  have hm := isGreatest_of_shared (hroutes.subset (List.subset_append_left _ _)) hab
  have hn := isGreatest_of_shared (hroutes.subset (by simp)) hbc
  have hk := isGreatest_of_shared (hroutes.subset (by simp)) hac
  have hle : min m n ≤ k := hk.2 ((hm.1.mono (Nat.min_le_left m n)).trans (hn.1.mono (Nat.min_le_right m n)))
  refine ⟨hle, fun hfirst hsecond => List.take_subset_take_left _ hle ?_⟩
  rcases Nat.le_total m n with hmn | hnm
  · rwa [Nat.min_eq_left hmn]
  · rwa [Nat.min_eq_right hnm, (hm.1.mono hnm).same]

/-- The sharing of states is symmetric: going from one to another leaves, in reverse order, what going back enters. And
it is ultrametric: two states share as much as both share with a third one, and a route that is kept across two
transitions in a row is kept by the direct one. -/
theorem shared_ultrametric (hroutes : Identified (a.lineage ++ b.lineage ++ c.lineage)) :
    (∀ m n, shared settings scope a b = .ok m → shared settings scope b a = .ok n → m = n ∧
      ∃ entered, ((b.toward a scope).enabled settings b.params).outcome = .ok entered ∧
        ((a.toward b scope).disabled settings a.params).outcome = .ok entered.reverse) ∧
    ∀ m n k, shared settings scope a b = .ok m → shared settings scope b c = .ok n → shared settings scope a c = .ok k →
      min m n ≤ k ∧ ∀ r ∈ a.lineage.take m, r ∈ b.lineage.take n → r ∈ a.lineage.take k := by
  have hab : Identified (a.lineage ++ b.lineage) := hroutes.subset (List.subset_append_left _ _)
  refine ⟨fun m n hm hn => ⟨shared_symm hab hm hn, disabled_eq_reverse_enabled hab hm hn⟩, fun m n k hm hn hk => ?_⟩
  exact ⟨(mem_take_of_mem_take (r := default) hroutes hm hn hk).1, fun r => (mem_take_of_mem_take hroutes hm hn hk).2⟩

/-- A route and a route below it share two routes where the query variable of the upper one has the same value, and the
root alone where it has another one. -/
theorem shared_of_same_query : ∃ a b c : State, Identified (a.lineage ++ b.lineage ++ c.lineage) ∧
    shared {} none a b = .ok 2 ∧ shared {} none b a = .ok 2 ∧ shared {} none b c = .ok 1 ∧ shared {} none a c = .ok 1 ∧
    (∃ entered, ((b.toward a none).enabled {} b.params).outcome = .ok entered ∧
      ((a.toward b none).disabled {} a.params).outcome = .ok entered.reverse) ∧
    ∀ r ∈ a.lineage.take 2, r ∈ b.lineage.take 1 → r ∈ a.lineage.take 1 := by
  let one : Mapping Value := ⟨[("q".toList, .str ['1'])]⟩
  let two : Mapping Value := ⟨[("q".toList, .str ['2'])]⟩
  have hrun : (Tree.create ['/']).Gives fun t =>
      (t.add (.dotted "a".toList) { pattern := "x?\x7bq\x7d".toList }).Gives fun t =>
      (t.add (.dotted "a.b".toList) { pattern := "y".toList }).Gives fun t =>
      (Traced.mk [] (t.fetch (.dotted "a".toList))).Gives fun upper =>
      (Traced.mk [] (t.fetch (.dotted "a.b".toList))).Gives fun lower =>
      ((toward ⟨upper.lineage, one⟩ ⟨lower.lineage, one⟩ none).common {} one upper.lineage lower.lineage).Gives (· = 2) ∧
      ((toward ⟨lower.lineage, one⟩ ⟨upper.lineage, one⟩ none).common {} one lower.lineage upper.lineage).Gives (· = 2) ∧
      ((toward ⟨lower.lineage, one⟩ ⟨upper.lineage, two⟩ none).common {} one lower.lineage upper.lineage).Gives (· = 1) ∧
      ((toward ⟨upper.lineage, one⟩ ⟨upper.lineage, two⟩ none).common {} one upper.lineage upper.lineage).Gives (· = 1) := by
    cbv
  obtain ⟨t₀, hcreate, hrun⟩ := Traced.exists_of_gives hrun
  obtain ⟨t₁, ha, hrun⟩ := Traced.exists_of_gives hrun
  obtain ⟨t₂, hb, hrun⟩ := Traced.exists_of_gives hrun
  obtain ⟨upper, hupper, hrun⟩ := Traced.exists_of_gives hrun
  obtain ⟨lower, hlower, hab, hba, hbc, hac⟩ := Traced.exists_of_gives hrun
  obtain ⟨_, hab, rfl⟩ := Traced.exists_of_gives hab
  obtain ⟨_, hba, rfl⟩ := Traced.exists_of_gives hba
  obtain ⟨_, hbc, rfl⟩ := Traced.exists_of_gives hbc
  obtain ⟨_, hac, rfl⟩ := Traced.exists_of_gives hac
  have hidentified := identified_of_built (((Built.create hcreate).add ha).add hb)
  have hroutes : Identified (upper.lineage ++ lower.lineage ++ upper.lineage) := by
    refine hidentified.subset (List.append_subset.mpr ⟨List.append_subset.mpr ⟨?_, ?_⟩, ?_⟩)
    · exact Tree.lineage_subset_of_fetch hupper
    · exact Tree.lineage_subset_of_fetch hlower
    · exact Tree.lineage_subset_of_fetch hupper
  rw [← shared_eq] at hab hba hbc hac
  have hall := @shared_ultrametric {} none ⟨upper.lineage, one⟩ ⟨lower.lineage, one⟩ ⟨upper.lineage, two⟩ hroutes
  exact ⟨_, _, _, hroutes, hab, hba, hbc, hac, (hall.1 _ _ hab hba).2, (hall.2 _ _ _ hab hbc hac).2⟩

end State

end Routing
