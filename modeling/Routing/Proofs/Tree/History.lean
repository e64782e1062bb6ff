import Mathlib.Data.List.DropRight
import Mathlib.Data.List.Infix
import Routing.Proofs.Mapping
import Routing.Proofs.Tree.Addresses

/-!
# Trees and their histories

A tree is told by the additions that were made to it (`history_determines_tree`). An addition stands as long as none
was made under the same segments or under a beginning of them, which takes the route away (`Stands`). The segments that
lead to a route are those of the additions that stand, and below a route are the segments that were added under it since
it was added itself (`addedUnder`), in the order of their first additions.
-/

namespace Routing

/-- A route that was added: under which segments, with which number and with what data. -/
structure Addition where
  segments : List Text
  id : Nat
  spec : RouteSpec

/-- Whether a lineage ends in the route that an addition makes below the route before it. -/
def Addition.Made (a : Addition) (lineage : Lineage) : Prop :=
  ∃ init segment above parent r, a.segments = init ++ [segment] ∧ lineage = above ++ [parent, r] ∧
    (Branch.child a.id parent segment a.spec).outcome = .ok r

/-- Whether an addition is the last one under its segments, and none was made under a beginning of them after it. -/
def Stands (log : List Addition) (a : Addition) : Prop :=
  ∃ before after, log = before ++ a :: after ∧ ∀ b ∈ after, ¬ b.segments <+: a.segments

/-- The last segments of the additions right under some segments, from the last addition of these or of a beginning of
them on. -/
def addedUnder (log : List Addition) (n : List Text) : List Text :=
  (log.rtakeWhile fun a => ¬ a.segments <+: n).filterMap fun a =>
    if a.segments.dropLast = n then a.segments.getLast? else none

theorem stands_concat {log : List Addition} {a b : Addition} :
    Stands (log ++ [a]) b ↔ b = a ∨ Stands log b ∧ ¬ a.segments <+: b.segments := by
  constructor
  · rintro ⟨before, after, hsplit, hafter⟩
    rcases List.eq_nil_or_concat after with rfl | ⟨after, last, rfl⟩
    · exact Or.inl (List.append_inj_right' hsplit rfl |> List.cons.inj |>.1.symm)
    · rw [List.concat_eq_append, ← List.cons_append, ← List.append_assoc] at hsplit
      obtain ⟨rfl, hlast⟩ := List.append_inj' hsplit rfl
      obtain rfl := (List.cons.inj hlast).1
      rw [List.concat_eq_append, List.forall_mem_append] at hafter
      exact Or.inr ⟨⟨before, after, rfl, hafter.1⟩, hafter.2 _ (List.mem_singleton.mpr rfl)⟩
  · rintro (rfl | ⟨⟨before, after, rfl, hafter⟩, ha⟩)
    · exact ⟨log, [], rfl, nofun⟩
    · refine ⟨before, after ++ [a], by simp, List.forall_mem_append.mpr ⟨hafter, ?_⟩⟩
      simpa using ha

theorem addedUnder_concat (log : List Addition) (a : Addition) (n : List Text) :
    addedUnder (log ++ [a]) n = if a.segments <+: n then [] else
      addedUnder log n ++ if a.segments.dropLast = n then a.segments.getLast?.toList else [] := by
  rw [addedUnder, List.rtakeWhile_concat]
  by_cases hpre : a.segments <+: n
  · simp [hpre]
  · by_cases hparent : a.segments.dropLast = n
    · cases hlast : a.segments.getLast? <;> simp [addedUnder, hpre, hparent, hlast]
    · simp [addedUnder, hpre, hparent]

theorem eraseDups_concat (segments : List Text) (segment : Text) :
    (segments ++ [segment]).eraseDups = Branch.withSegment segment segments.eraseDups := by
  rw [eraseDups_append_singleton, Branch.withSegment_eq]
  simp only [List.mem_eraseDups]

/-- Whether a tree is what some additions made of a root. -/
structure Recorded (t : Tree) (log : List Addition) : Prop where
  /-- Segments that lead to a route are those of an addition that stands. -/
  stands : ∀ {n v}, n ≠ [] → t.root.view n = some v → ∃ a, Stands log a ∧ a.segments = n
  /-- An addition that stands made the route that its segments lead to. -/
  made : ∀ {a}, Stands log a → ∃ v, t.root.view a.segments = some v ∧ a.Made v.1
  below : ∀ {n v}, t.root.view n = some v → v.2 = (addedUnder log n).eraseDups

theorem recorded_create {delimiter : Text} {t : Tree} (h : (Tree.create delimiter).outcome = .ok t) :
    Recorded t [] := by
  have hnone : ∀ a, ¬ Stands [] a := by
    rintro a ⟨before, after, hsplit, -⟩
    exact absurd hsplit.symm (by simp)
  refine ⟨fun {n v} hn hv => ?_, fun ha => absurd ha (hnone _), fun {n v} hv => ?_⟩
  · exact absurd (Tree.view_of_create h hv).1 hn
  · rw [(Tree.view_of_create h hv).2]
    rfl

/-- One more addition is one more of the record. -/
theorem Recorded.add {t u : Tree} {log : List Addition} {name : RouteName} {names : List Text} {spec : RouteSpec}
    (ht : Recorded t log) (hsplit : name.split = .ok names) (h : (t.add name spec).outcome = .ok u) :
    Recorded u (log ++ [⟨names, t.next, spec⟩]) := by
  obtain ⟨init, segment, above, parent, others, r, rfl, hparent, hr, hview, hkept, hcases⟩ :=
    Tree.view_of_add hsplit h
  refine ⟨fun {n v} hn hv => ?_, fun {a} ha => ?_, fun {n v} hv => ?_⟩
  · rcases hcases n v hv with ⟨rfl, -⟩ | ⟨hpre, w, hw, -⟩
    · exact ⟨_, stands_concat.mpr (Or.inl rfl), rfl⟩
    · obtain ⟨a, ha, rfl⟩ := ht.stands hn hw
      exact ⟨a, stands_concat.mpr (Or.inr ⟨ha, hpre⟩), rfl⟩
  · rcases stands_concat.mp ha with rfl | ⟨ha, hpre⟩
    · exact ⟨_, hview, init, segment, above, parent, r, rfl, rfl, hr⟩
    · obtain ⟨v, hv, hmade⟩ := ht.made ha
      exact ⟨_, hkept _ v hpre hv, hmade⟩
  · rw [addedUnder_concat]
    rcases hcases n v hv with ⟨rfl, rfl⟩ | ⟨hpre, w, hw, rfl⟩
    · rw [if_pos (List.prefix_refl _)]
      rfl
    · rw [if_neg hpre, List.dropLast_concat, List.getLast?_concat, ht.below hw]
      by_cases hparent : n = init
      · rw [if_pos hparent, if_pos hparent.symm, ← eraseDups_concat]
        rfl
      · rw [if_neg hparent, if_neg (Ne.symm hparent), List.append_nil]

namespace Tree

/-- A tree and the additions made so far after one more call. A call that fails leaves both as they were. -/
def call (s : Tree × List Addition) (c : RouteName × RouteSpec) : Tree × List Addition :=
  match c.1.split, (s.1.add c.1 c.2).outcome with
  | .ok segments, .ok t => (t, s.2 ++ [⟨segments, s.1.next, c.2⟩])
  | _, _ => s

/-- What some calls make of a tree, and the additions that they made. -/
def history (t : Tree) (calls : List (RouteName × RouteSpec)) : Tree × List Addition := calls.foldl call (t, [])

/-- The route that some segments lead to. -/
def route? (t : Tree) (n : List Text) : Option Route := (t.fetch (.segments n)).toOption.map Place.route

theorem call_cases (t : Tree) (log : List Addition) (name : RouteName) (spec : RouteSpec) :
    (∃ names u, name.split = .ok names ∧ (t.add name spec).outcome = .ok u ∧
      call (t, log) (name, spec) = (u, log ++ [⟨names, t.next, spec⟩])) ∨
    (∃ e, (t.add name spec).outcome = .error e ∧ call (t, log) (name, spec) = (t, log)) := by
  cases hadd : (t.add name spec).outcome with
  | error e =>
    refine Or.inr ⟨e, rfl, ?_⟩
    rw [call, hadd]
    cases name.split <;> rfl
  | ok u =>
    obtain ⟨names, hsplit, -⟩ := Traced.bind_outcome_eq_ok.mp hadd
    replace hsplit : name.split = .ok names := hsplit
    exact Or.inl ⟨names, u, hsplit, rfl, by simp only [call, hadd, hsplit]⟩

/-- The root stays as it is. -/
theorem root_history (t : Tree) (calls : List (RouteName × RouteSpec)) :
    (t.history calls).1.root.route = t.root.route := by
  rw [history]
  generalize ([] : List Addition) = log
  induction calls generalizing t log with
  | nil => rfl
  | cons c calls ih =>
    rw [List.foldl_cons]
    rcases call_cases t log c.1 c.2 with ⟨names, u, -, hadd, hcall⟩ | ⟨e, -, hcall⟩
    · obtain ⟨names', -, hadd⟩ := Traced.bind_outcome_eq_ok.mp hadd
      obtain ⟨root, hroot, hadd⟩ := Traced.bind_outcome_eq_ok.mp hadd
      rw [hcall, ih, ← Except.ok.inj hadd]
      exact (Branch.routes_of_attach Route.id hroot).1
    · rw [hcall]
      exact ih t log

/-- What calls on a root make is on record. -/
theorem recorded_history {delimiter : Text} {start : Tree} (h : (create delimiter).outcome = .ok start)
    (calls : List (RouteName × RouteSpec)) :
    Built (start.history calls).1 ∧ Recorded (start.history calls).1 (start.history calls).2 := by
  rw [history]
  have hstart : Built start ∧ Recorded start [] := ⟨.create h, recorded_create h⟩
  clear h
  generalize ([] : List Addition) = log at hstart
  induction calls generalizing start log with
  | nil => exact hstart
  | cons c calls ih =>
    rw [List.foldl_cons]
    rcases call_cases start log c.1 c.2 with ⟨names, u, hsplit, hadd, hcall⟩ | ⟨e, -, hcall⟩
    · rw [hcall]
      exact ih _ ⟨.add hstart.1 hadd, hstart.2.add hsplit hadd⟩
    · rw [hcall]
      exact ih _ hstart

/-- A tree is told by the history of its additions. -/
theorem history_determines_tree {delimiter : Text} {start t : Tree} {log : List Addition}
    (hstart : (create delimiter).outcome = .ok start) {calls : List (RouteName × RouteSpec)}
    (h : start.history calls = (t, log)) :
    (∀ n ≠ [], (∃ p, t.fetch (.segments n) = .ok p) ↔ ∃ a, Stands log a ∧ a.segments = n) ∧
    (∀ a, Stands log a → ∃ p, t.fetch (.segments a.segments) = .ok p ∧ a.Made p.lineage) ∧
    (∀ n p, t.fetch (.segments n) = .ok p → p.lineage.map some = n.inits.map t.route?) ∧
    (t.root.walk.map Route.id).Nodup ∧
    ∃ addresses : List (List Text), addresses.map t.route? = t.root.walk.map some ∧
      (∀ n, n ∈ addresses ↔ n ≠ [] ∧ ∃ p, t.fetch (.segments n) = .ok p) ∧
      addresses.Pairwise (fun m n => ¬ n <+: m) ∧
      ∀ n p, t.fetch (.segments n) = .ok p →
        addresses.filter (·.dropLast = n) = (addedUnder log n).eraseDups.map (n ++ [·]) := by
  obtain ⟨hbuilt, hrecorded⟩ := recorded_history hstart calls
  rw [h] at hbuilt hrecorded
  have hroute : t.route? = t.root.routeAt := funext fun n => Branch.map_route_fetch [] t.root n
  have hview : ∀ {n p}, t.fetch (.segments n) = .ok p →
      t.root.view n = some (p.lineage, Branch.segments p.branch.children) :=
    fun hp => Branch.view_eq_some_iff.mpr ⟨_, hp, rfl, rfl⟩
  have hfound : ∀ {n v}, t.root.view n = some v → ∃ p, t.fetch (.segments n) = .ok p ∧ p.lineage = v.1 := by
    intro n v hv
    obtain ⟨p, hp, hlineage, -⟩ := Branch.view_eq_some_iff.mp hv
    exact ⟨p, hp, hlineage⟩
  have hnode : Branch.node t.root.route t.root.children = t.root := by cases t.root; rfl
  have hapart : Branch.Apart t.root.children := by
    refine Branch.apart_of_view t.root.route fun n v hv => ?_
    rw [hnode] at hv
    rw [hrecorded.below hv]
    exact nodup_eraseDups _
  have hmade : ∀ a, Stands log a → ∃ p, t.fetch (.segments a.segments) = .ok p ∧ a.Made p.lineage := by
    intro a ha
    obtain ⟨v, hv, hmade⟩ := hrecorded.made ha
    obtain ⟨p, hp, hlineage⟩ := hfound hv
    exact ⟨p, hp, hlineage ▸ hmade⟩
  refine ⟨fun n hn => ⟨fun ⟨p, hp⟩ => hrecorded.stands hn (hview hp), ?_⟩, hmade, fun n p hp => ?_, ?_,
    Branch.addressesOf t.root.children, ?_, fun n => ?_, Branch.addressesOf_pairwise hapart, fun n p hp => ?_⟩
  · rintro ⟨a, ha, rfl⟩
    obtain ⟨p, hp, -⟩ := hmade a ha
    exact ⟨p, hp⟩
  · rw [hroute]
    exact Branch.lineage_of_view (hview hp)
  · have hids := (numbered_of_built hbuilt).nodup
    rw [Branch.routes_eq, List.map_cons] at hids
    exact (List.nodup_cons.mp hids).2
  · rw [hroute, ← hnode]
    exact Branch.map_routeAt_addressesOf _ hapart
  · rw [Branch.mem_addressesOf t.root.route hapart, hnode, Branch.isSome_routeAt, Option.isSome_iff_exists]
    refine and_congr_right fun _ => ⟨fun ⟨v, hv⟩ => ?_, fun ⟨p, hp⟩ => ⟨_, hview hp⟩⟩
    obtain ⟨p, hp, -⟩ := hfound hv
    exact ⟨p, hp⟩
  · rw [Branch.filter_addressesOf t.root.route hapart (hnode ▸ hview hp), ← hrecorded.below (hview hp)]

/-- The routes `a` and `a.b` are added. Then `a` is to be replaced, which fails the first time, and `a.c` is added. -/
theorem replaced_route_loses_those_below :
    ∃ start t log calls, (create ['/']).outcome = .ok start ∧ start.history calls = (t, log) ∧
      calls.length = 5 ∧
      log.map Addition.segments = [["a".toList], ["a".toList, "b".toList], ["a".toList], ["a".toList, "c".toList]] ∧
      t.fetch (.dotted "a.b".toList) = .error (.unknownRoute "b".toList "a".toList) ∧
      (∀ n ≠ [], (∃ p, t.fetch (.segments n) = .ok p) ↔ ∃ a, Stands log a ∧ a.segments = n) ∧
      ∀ a, Stands log a → ∃ p, t.fetch (.segments a.segments) = .ok p ∧ a.Made p.lineage := by
  let calls : List (RouteName × RouteSpec) :=
    [(.dotted "a".toList, { pattern := "x".toList }), (.dotted "a.b".toList, { pattern := "y".toList }),
      (.dotted "a".toList, { pattern := "z[".toList }), (.dotted "a".toList, { pattern := "z".toList }),
      (.segments ["a".toList, "c".toList], { pattern := "y".toList })]
  have hrun : (create ['/']).Gives fun start =>
      (start.history calls).2.map Addition.segments =
        [["a".toList], ["a".toList, "b".toList], ["a".toList], ["a".toList, "c".toList]] ∧
      (start.history calls).1.fetch (.dotted "a.b".toList) = .error (.unknownRoute "b".toList "a".toList) := by
    cbv
  obtain ⟨start, hstart, hlog, hlost⟩ := Traced.exists_of_gives hrun
  have hhistory : start.history calls = ((start.history calls).1, (start.history calls).2) := rfl
  obtain ⟨hresolves, hmade, -⟩ := history_determines_tree hstart hhistory
  exact ⟨start, _, _, calls, hstart, rfl, rfl, hlog, hlost, hresolves, hmade⟩

end Tree

end Routing
