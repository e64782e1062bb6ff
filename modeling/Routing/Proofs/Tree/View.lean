import Routing.Proofs.Tree.Numbers

/-!
# What segments lead to

A tree is looked at from outside by its view: for some segments, the routes that they lead through and the segments
right below, if they lead to a route at all. Fetching shows the view and no more (`view_eq_some_iff`). Adding a route
changes the view in three places only (`view_attach`): at the segments of the new route, below them, where all is gone,
and at its parent, which has one more segment below it unless there was one to replace.
-/

namespace Routing

namespace Branch

/-- The segments of some branches, in order. -/
def segments (branches : List Branch) : List Text := branches.map fun b => b.route.segment

/-- What some segments lead to: the routes from the top down to it, and the segments right below it. -/
def view (b : Branch) : List Text → Option (Lineage × List Text)
  | [] => some ([b.route], segments b.children)
  | segment :: rest =>
    (named segment b.children).bind fun child => (child.view rest).map fun v => (b.route :: v.1, v.2)

/-- Some segments with another one put in, as the last if it is new. -/
def withSegment (segment : Text) (others : List Text) : List Text :=
  if others.contains segment then others else others ++ [segment]

theorem withSegment_eq (segment : Text) (others : List Text) :
    withSegment segment others = if segment ∈ others then others else others ++ [segment] := by
  simp only [withSegment, List.contains_iff_mem]

theorem node_route_children (b : Branch) : node b.route b.children = b := by
  cases b
  rfl

theorem map_fetch (above : List Route) (b : Branch) (names : List Text) :
    (b.fetch above names).toOption.map (fun p => (p.lineage, segments p.branch.children)) =
      (b.view names).map fun v => (above ++ v.1, v.2) := by
  induction names generalizing b above with
  | nil => rfl
  | cons segment rest ih =>
    rw [fetch, view]
    cases named segment b.children with
    | none => rfl
    | some child => simp [ih, Function.comp_def]

/-- The view shows what fetching finds. -/
theorem view_eq_some_iff {b : Branch} {names : List Text} {v : Lineage × List Text} :
    b.view names = some v ↔
      ∃ p, b.fetch [] names = .ok p ∧ p.lineage = v.1 ∧ segments p.branch.children = v.2 := by
  have hfetch := map_fetch [] b names
  simp only [List.nil_append, Prod.mk.eta, Option.map_id'] at hfetch
  rw [← hfetch]
  cases b.fetch [] names with
  | error e => simp [Except.toOption]
  | ok p => simp [Except.toOption, Prod.ext_iff]

/-! ### Branches put among others -/

theorem named_cons (segment : Text) (b : Branch) (rest : List Branch) :
    named segment (b :: rest) = if b.route.segment = segment then some b else named segment rest := by
  by_cases h : b.route.segment = segment <;> simp [named, h]

theorem named_setAmong (segment : Text) (b : Branch) (branches : List Branch) :
    named segment (setAmong b branches) = if b.route.segment = segment then some b else named segment branches := by
  induction branches with
  | nil => exact named_cons segment b []
  | cons first rest ih =>
    rw [setAmong]
    by_cases hfirst : first.route.segment = b.route.segment
    · rw [if_pos hfirst, named_cons, named_cons, hfirst]
      split <;> rfl
    · rw [if_neg hfirst, named_cons, ih, named_cons]
      by_cases h : b.route.segment = segment
      · rw [if_pos h, if_pos h, if_neg (h ▸ hfirst)]
      · rw [if_neg h, if_neg h]

theorem segments_setAmong (b : Branch) (branches : List Branch) :
    segments (setAmong b branches) = withSegment b.route.segment (segments branches) := by
  induction branches with
  | nil => rfl
  | cons first rest ih =>
    have hcons : ∀ (c : Branch) others, segments (c :: others) = c.route.segment :: segments others := fun _ _ => rfl
    rw [setAmong, withSegment_eq]
    by_cases hfirst : first.route.segment = b.route.segment
    · rw [if_pos hfirst, hcons, hcons, hfirst, if_pos List.mem_cons_self]
    · rw [if_neg hfirst, hcons, hcons, ih, withSegment_eq]
      by_cases hmem : b.route.segment ∈ segments rest
      · rw [if_pos hmem, if_pos (List.mem_cons_of_mem _ hmem)]
      · rw [if_neg hmem, if_neg (by simp [Ne.symm hfirst, hmem]), List.cons_append]

theorem segment_of_child {id : Nat} {parent r : Route} {segment : Text} {spec : RouteSpec}
    (h : (child id parent segment spec).outcome = .ok r) : r.segment = segment := by
  obtain ⟨pattern, -, hr⟩ := Traced.bind_outcome_eq_ok.mp h
  rw [Traced.outcome_pure, Except.ok.injEq] at hr
  rw [← hr]

theorem view_nil (b : Branch) : b.view [] = some ([b.route], segments b.children) := rfl

theorem view_node_nil (route : Route) (children : List Branch) :
    (node route children).view [] = some ([route], segments children) := rfl

/-- Putting a branch among others changes what is seen under its segment only. -/
theorem view_setAmong (route : Route) (b : Branch) (branches : List Branch) (segment : Text) (rest : List Text) :
    (node route (setAmong b branches)).view (segment :: rest) =
      if b.route.segment = segment then (b.view rest).map fun v => (route :: v.1, v.2)
      else (node route branches).view (segment :: rest) := by
  rw [view, view, children, children, named_setAmong]
  split <;> rfl

/-- Adding a route puts it where it was asked for, with nothing below it, and adds its segment to those right below its
parent. Nothing else changes but what was below a route that it replaced. -/
theorem view_attach {id : Nat} {spec : RouteSpec} {b c : Branch} {init : List Text} {segment : Text}
    (h : (attach id spec b (init ++ [segment])).outcome = .ok c) :
    ∃ above parent others r, b.view init = some (above ++ [parent], others) ∧
      (child id parent segment spec).outcome = .ok r ∧ ∀ m, c.view m =
        if init ++ [segment] <+: m then (if m = init ++ [segment] then some (above ++ [parent, r], []) else none)
        else (b.view m).map fun v => (v.1, if m = init then withSegment segment v.2 else v.2) := by
  induction init generalizing b c with
  | nil =>
    obtain ⟨r, hr, rfl⟩ := attach_singleton_eq_ok h
    refine ⟨[], b.route, segments b.children, r, rfl, hr, fun m => ?_⟩
    have hsegment : (node r []).route.segment = segment := segment_of_child hr
    cases m with
    | nil =>
      rw [view_node_nil, segments_setAmong, hsegment, view_nil]
      simp
    | cons s rest =>
      rw [view_setAmong, hsegment, node_route_children]
      by_cases hs : segment = s
      · cases rest <;> simp [hs, view, route, children, segments, named]
      · simp [hs]
  | cons s init ih =>
    obtain ⟨next, more, hnext⟩ := List.exists_cons_of_ne_nil (show init ++ [segment] ≠ [] by simp)
    rw [List.cons_append, hnext] at h
    obtain ⟨inner, changed, hinner, hchanged, rfl⟩ := attach_cons_eq_ok h
    obtain ⟨above, parent, others, r, hview, hr, hall⟩ := ih (hnext ▸ hchanged)
    have hsegment : changed.route.segment = s := by
      rw [(routes_of_attach Route.id hchanged).1]
      exact segment_of_named hinner
    refine ⟨b.route :: above, parent, others, r, ?_, hr, fun m => ?_⟩
    · rw [view, hinner, Option.bind_some, hview]
      rfl
    cases m with
    | nil =>
      have hmem : s ∈ segments b.children := by
        rw [← segment_of_named hinner]
        exact List.mem_map_of_mem (mem_of_named hinner)
      rw [view_node_nil, segments_setAmong, hsegment, withSegment_eq, if_pos hmem, view_nil]
      simp
    | cons x rest =>
      rw [view_setAmong, hsegment, node_route_children]
      by_cases hx : s = x
      · subst hx
        have hold : b.view (s :: rest) = (inner.view rest).map fun v => (b.route :: v.1, v.2) := by
          rw [view, hinner, Option.bind_some]
        simp only [if_true, hall, List.cons_append, List.cons_prefix_cons, true_and, List.cons.injEq, hold]
        split
        · split <;> rfl
        · rw [Option.map_map, Option.map_map]
          rfl
      · simp [hx, Ne.symm hx]

end Branch

namespace Tree

open Branch

/-- Segments lead to nothing but the root in a tree without further routes. -/
theorem view_of_create {delimiter : Text} {t : Tree} (h : (create delimiter).outcome = .ok t) {n : List Text}
    {v : Lineage × List Text} (hv : t.root.view n = some v) : n = [] ∧ v = ([t.root.route], []) := by
  obtain ⟨pattern, -, h⟩ := Traced.bind_outcome_eq_ok.mp h
  rw [Traced.outcome_pure, Except.ok.injEq] at h
  rw [← h] at hv ⊢
  cases n with
  | nil => exact ⟨rfl, (Option.some.inj hv).symm⟩
  | cons => cases hv

/-- What is seen after a route was added is the new route or what was seen before, with one more segment below the
parent. -/
theorem view_of_add {t u : Tree} {name : RouteName} {names : List Text} {spec : RouteSpec}
    (hsplit : name.split = .ok names) (h : (t.add name spec).outcome = .ok u) :
    ∃ init segment above parent others r, names = init ++ [segment] ∧
      t.root.view init = some (above ++ [parent], others) ∧ (child t.next parent segment spec).outcome = .ok r ∧
      u.root.view names = some (above ++ [parent, r], []) ∧
      (∀ n v, ¬ names <+: n → t.root.view n = some v →
        u.root.view n = some (v.1, if n = init then withSegment segment v.2 else v.2)) ∧
      ∀ n v, u.root.view n = some v → n = names ∧ v = (above ++ [parent, r], []) ∨
        ¬ names <+: n ∧ ∃ w, t.root.view n = some w ∧
          v = (w.1, if n = init then withSegment segment w.2 else w.2) := by
  obtain ⟨names', hnames', h⟩ := Traced.bind_outcome_eq_ok.mp h
  obtain rfl : names = names' := Except.ok.inj (hsplit.symm.trans hnames')
  obtain ⟨root, hroot, h⟩ := Traced.bind_outcome_eq_ok.mp h
  rw [← Except.ok.inj h]
  rcases List.eq_nil_or_concat names with rfl | ⟨init, segment, rfl⟩
  · cases hroot
  rw [List.concat_eq_append] at *
  obtain ⟨above, parent, others, r, hparent, hr, hall⟩ := view_attach hroot
  refine ⟨init, segment, above, parent, others, r, rfl, hparent, hr, ?_, ?_, ?_⟩
  · show root.view _ = _
    rw [hall, if_pos (List.prefix_refl _), if_pos rfl]
  · intro n v hn hv
    show root.view _ = _
    rw [hall, if_neg hn, hv]
    rfl
  · intro n v hv
    replace hv : root.view n = some v := hv
    rw [hall] at hv
    split at hv
    · split at hv
      · next heq => exact Or.inl ⟨heq, (Option.some.inj hv).symm⟩
      · cases hv
    · next hpre =>
      obtain ⟨w, hw, rfl⟩ := Option.map_eq_some_iff.mp hv
      exact Or.inr ⟨hpre, w, hw, rfl⟩

/-- The root stays as it is. -/
theorem route_of_add {t u : Tree} {name : RouteName} {spec : RouteSpec} (h : (t.add name spec).outcome = .ok u) :
    u.root.route = t.root.route := by
  obtain ⟨names, -, h⟩ := Traced.bind_outcome_eq_ok.mp h
  obtain ⟨root, hroot, h⟩ := Traced.bind_outcome_eq_ok.mp h
  rw [← Except.ok.inj h]
  exact (routes_of_attach Route.id hroot).1

end Tree

end Routing
