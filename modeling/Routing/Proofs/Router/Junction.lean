import Mathlib.Order.Bounds.Defs
import Routing.Proofs.Route.Assign
import Routing.Transition

/-!
# The junction of two chains

A transition keeps the longest common beginning of the two chains in which the routes are the same and in the same
state before and after (`isGreatest_of_junctionIndex`). What is left is the rest of the old chain, and what is entered
the rest of the new one (`outcome_disabled`, `outcome_enabled`).
-/

namespace Routing.Transition

variable {t : Transition} {settings : Settings} {before : Mapping Value}

/-- Whether a route is in the same state before and after a transition: its query variables have the same texts, and
its links are both written and are the same. -/
structure SameState (t : Transition) (settings : Settings) (before : Mapping Value) (r : Route) : Prop where
  query : ∀ name ∈ r.pattern.queryNames, Route.paramText before name = Route.paramText t.params name
  link : ∃ l, r.link settings before { scope := t.scope } none = .ok l ∧
    r.link settings t.params { scope := t.scope } none = .ok l

/-- Whether the routes at the same depth are the same and in the same state, for the first `n` depths of two chains. -/
def SharesAmong (t : Transition) (settings : Settings) (before : Mapping Value) (old new : Lineage) (n : Nat) : Prop :=
  n ≤ (old.zip new).length ∧ ∀ p ∈ (old.zip new).take n, p.1.id = p.2.id ∧ t.SameState settings before p.1

/-- Whether the first `n` routes of the two chains of a transition are the same and in the same state. -/
def Shares (t : Transition) (settings : Settings) (before : Mapping Value) (n : Nat) : Prop :=
  t.SharesAmong settings before (t.source.getD []) t.target n

theorem sameQuery_iff {r : Route} {before after : Mapping Value} : r.sameQuery before after = true ↔
    ∀ name ∈ r.pattern.queryNames, Route.paramText before name = Route.paramText after name := by
  simp [Route.sameQuery]

/-- A comparison of links that ends without an error finds them the same exactly if both are written and equal. -/
theorem sameLink_eq_ok {r : Route} {same : Bool} (h : (t.sameLink settings r before).outcome = .ok same) :
    same = true ↔ ∃ l, r.link settings before { scope := t.scope } none = .ok l ∧
      r.link settings t.params { scope := t.scope } none = .ok l := by
  rw [sameLink] at h
  cases hold : r.link settings before { scope := t.scope } none with
  | error e =>
    rw [hold] at h
    suffices hfalse : same = false by simp [hfalse]
    cases e <;> simp_all [bind, Except.bind, Traced.note, Traced.fail, pure]
  | ok old =>
    rw [hold] at h
    cases hnew : r.link settings t.params { scope := t.scope } none with
    | error e =>
      rw [hnew] at h
      suffices hfalse : same = false by simp [hfalse]
      cases e <;> simp_all [bind, Except.bind, Traced.note, Traced.fail, pure]
    | ok new =>
      rw [hnew] at h
      have hsame : (old == new) = same := Except.ok.inj h
      rw [← hsame, beq_iff_eq]
      constructor
      · rintro rfl
        exact ⟨old, rfl, rfl⟩
      · rintro ⟨l, hl, hl'⟩
        exact (Except.ok.inj hl).trans (Except.ok.inj hl').symm

/-- What comparing two chains does with the routes that they start with. -/
theorem common_cons_eq_ok {r s : Route} {old new : Lineage} {k : Nat}
    (h : (t.common settings before (r :: old) (s :: new)).outcome = .ok k) :
    k = 0 ∧ ¬ (r.id = s.id ∧ t.SameState settings before r) ∨
      ∃ j, k = j + 1 ∧ (r.id = s.id ∧ t.SameState settings before r) ∧
        (t.common settings before old new).outcome = .ok j := by
  rw [common] at h
  split at h
  · next hdiffer =>
    refine Or.inl ⟨(Except.ok.inj h).symm, fun hsame => ?_⟩
    simp [hsame.1, sameQuery_iff.mpr hsame.2.query] at hdiffer
  · next hsame =>
    simp only [Bool.or_eq_true, bne_iff_ne, Bool.not_eq_true', not_or, Decidable.not_not, Bool.not_eq_false] at hsame
    obtain ⟨hid, hquery⟩ := hsame
    obtain ⟨link, hlink, h⟩ := Traced.bind_outcome_eq_ok.mp h
    cases link with
    | false =>
      refine Or.inl ⟨(Except.ok.inj h).symm, fun hstate => ?_⟩
      exact Bool.false_ne_true ((sameLink_eq_ok hlink).mpr hstate.2.link)
    | true =>
      obtain ⟨j, hj, h⟩ := Traced.bind_outcome_eq_ok.mp h
      exact Or.inr ⟨j, (Except.ok.inj h).symm, ⟨hid, sameQuery_iff.mp hquery, (sameLink_eq_ok hlink).mp rfl⟩, hj⟩

theorem sharesAmong_cons {r s : Route} {old new : Lineage} {n : Nat} :
    t.SharesAmong settings before (r :: old) (s :: new) (n + 1) ↔
      (r.id = s.id ∧ t.SameState settings before r) ∧ t.SharesAmong settings before old new n := by
  rw [SharesAmong, SharesAmong, List.zip_cons_cons, List.take_succ_cons, List.forall_mem_cons, List.length_cons,
    Nat.succ_le_succ_iff]
  exact and_left_comm

/-- Where routes with the same number are the same, the beginnings that two chains share are equal. -/
theorem SharesAmong.take_eq {old new : Lineage} {n : Nat} (h : t.SharesAmong settings before old new n)
    (hdistinct : ∀ r ∈ old, ∀ s ∈ new, r.id = s.id → r = s) : old.take n = new.take n := by
  induction n generalizing old new with
  | zero => rw [List.take_zero, List.take_zero]
  | succ n ih =>
    match old, new with
    | [], _ => exact absurd h.1 (by simp)
    | _ :: _, [] => exact absurd h.1 (by simp)
    | r :: old, s :: new =>
      obtain ⟨⟨hid, -⟩, hrest⟩ := sharesAmong_cons.mp h
      have hhead := hdistinct r List.mem_cons_self s List.mem_cons_self hid
      have htail := ih hrest fun r hr s hs => hdistinct r (List.mem_cons_of_mem _ hr) s (List.mem_cons_of_mem _ hs)
      rw [List.take_succ_cons, List.take_succ_cons, hhead, htail]

/-- Two chains that differ at the top share nothing. -/
theorem isGreatest_zero {old new : Lineage} (h : ∀ n, ¬ t.SharesAmong settings before old new (n + 1)) :
    IsGreatest {n | t.SharesAmong settings before old new n} 0 := by
  refine ⟨⟨Nat.zero_le _, by simp⟩, fun n hn => ?_⟩
  cases n with
  | zero => exact Nat.le_refl _
  | succ n => exact absurd hn (h n)

/-- Comparing two chains counts the longest beginning that they share. -/
theorem isGreatest_of_common {old new : Lineage} {k : Nat} (h : (t.common settings before old new).outcome = .ok k) :
    IsGreatest {n | t.SharesAmong settings before old new n} k := by
  induction old generalizing new k with
  | nil =>
    obtain rfl : 0 = k := Except.ok.inj h
    exact isGreatest_zero fun n hn => by simpa using hn.1
  | cons r old ih =>
    cases new with
    | nil =>
      obtain rfl : 0 = k := Except.ok.inj h
      exact isGreatest_zero fun n hn => by simpa using hn.1
    | cons s new =>
      rcases common_cons_eq_ok h with ⟨rfl, hdiffer⟩ | ⟨j, rfl, hsame, hj⟩
      · exact isGreatest_zero fun n hn => hdiffer (sharesAmong_cons.mp hn).1
      · obtain ⟨hshares, hgreatest⟩ := ih hj
        refine ⟨sharesAmong_cons.mpr ⟨hsame, hshares⟩, fun n hn => ?_⟩
        cases n with
        | zero => exact Nat.zero_le _
        | succ n => exact Nat.succ_le_succ (hgreatest (sharesAmong_cons.mp hn).2)

theorem outcome_junctionIndex (t : Transition) (settings : Settings) (before : Mapping Value) :
    (t.junctionIndex settings before).outcome = (t.common settings before (t.source.getD []) t.target).outcome := by
  rw [junctionIndex]
  cases t.source with
  | none => rfl
  | some lineage =>
    rw [Traced.outcome_bind, Option.getD_some]
    cases (t.common settings before lineage t.target).outcome <;> rfl

/-- The junction is where the longest beginning that the chains share ends. -/
theorem isGreatest_of_junctionIndex {k : Nat} (h : (t.junctionIndex settings before).outcome = .ok k) :
    IsGreatest {n | t.Shares settings before n} k := by
  rw [outcome_junctionIndex] at h
  exact isGreatest_of_common h

/-- The routes to leave are those of the old chain beyond the junction, deepest first. -/
theorem outcome_disabled (t : Transition) (settings : Settings) (before : Mapping Value) :
    (t.disabled settings before).outcome =
      (t.junctionIndex settings before).outcome.map fun k => ((t.source.getD []).drop k).reverse := by
  rw [disabled]
  cases hsource : t.source with
  | none =>
    rw [junctionIndex, hsource]
    rfl
  | some lineage =>
    rw [Traced.outcome_bind, Option.getD_some]
    cases (t.junctionIndex settings before).outcome <;> rfl

/-- The routes to enter are those of the new chain beyond the junction. -/
theorem outcome_enabled (t : Transition) (settings : Settings) (before : Mapping Value) :
    (t.enabled settings before).outcome = (t.junctionIndex settings before).outcome.map t.target.drop := by
  rw [enabled, Traced.outcome_bind]
  cases (t.junctionIndex settings before).outcome <;> rfl

theorem disabled_eq_ok {left : List Route} : (t.disabled settings before).outcome = .ok left ↔
    ∃ k, (t.junctionIndex settings before).outcome = .ok k ∧ ((t.source.getD []).drop k).reverse = left := by
  rw [outcome_disabled]
  cases (t.junctionIndex settings before).outcome <;> simp [Except.map]

theorem enabled_eq_ok {entered : List Route} : (t.enabled settings before).outcome = .ok entered ↔
    ∃ k, (t.junctionIndex settings before).outcome = .ok k ∧ t.target.drop k = entered := by
  rw [outcome_enabled]
  cases (t.junctionIndex settings before).outcome <;> simp [Except.map]

end Routing.Transition
