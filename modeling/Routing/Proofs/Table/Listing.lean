import Routing.Proofs.Table.Building
import Routing.Proofs.Tree.Renumbering

/-!
# Trees and the lists they are made of

A tree that was made of definitions with different names has a route for each of them, made below its parent, and below
each route the segments of its definitions in their order (`Lists`). So two trees that were made of the same definitions
look the same but for the numbers where the definitions with the same parent come in the same order
(`unnumbered_eq_of_lists`).
-/

namespace Routing

namespace Definition

/-- The segments that lead to the parent. -/
def parent (d : Definition) : List Text := d.address.dropLast

/-- The segment under which the route is added to its parent. -/
def segment (d : Definition) : Text := d.address.getLast (Text.splitOn_ne_nil '.' d.name)

theorem parent_concat_segment (d : Definition) : d.parent ++ [d.segment] = d.address :=
  List.dropLast_concat_getLast (Text.splitOn_ne_nil '.' d.name)

theorem address_ne_nil (d : Definition) : d.address ≠ [] := Text.splitOn_ne_nil '.' d.name

theorem not_address_prefix_parent (d : Definition) : ¬ d.address <+: d.parent := by
  intro hpre
  have hlength := hpre.length_le
  rw [← d.parent_concat_segment, List.length_append, List.length_singleton] at hlength
  exact Nat.not_succ_le_self _ hlength

theorem name_eq_of_address_eq {d e : Definition} (h : d.address = e.address) : d.name = e.name := by
  rw [← Text.join_splitOn '.' d.name, ← Text.join_splitOn '.' e.name]
  exact congrArg _ h

end Definition

namespace Branch

theorem exists_view_of_prefix {b : Branch} {m n : List Text} {v : Lineage × List Text} (h : b.view n = some v)
    (hpre : m <+: n) : ∃ w, b.view m = some w := by
  obtain ⟨k, rfl⟩ := hpre
  induction m generalizing b v with
  | nil => exact ⟨_, view_nil b⟩
  | cons segment m ih =>
    rw [List.cons_append, view] at h
    obtain ⟨child, hchild, h⟩ := Option.bind_eq_some_iff.mp h
    obtain ⟨w, hw, -⟩ := Option.map_eq_some_iff.mp h
    obtain ⟨w', hw'⟩ := ih hw
    exact ⟨_, by rw [view, hchild, Option.bind_some, hw']; rfl⟩

/-- A route is added below one that segments lead to, if that one gets a route under the segment. -/
theorem exists_attach {id : Nat} {spec : RouteSpec} {b : Branch} {init : List Text} {segment : Text}
    {above : List Route} {parent r : Route} {others : List Text}
    (hview : b.view init = some (above ++ [parent], others)) (hr : (child id parent segment spec).outcome = .ok r) :
    ∃ c, (attach id spec b (init ++ [segment])).outcome = .ok c := by
  induction init generalizing b above with
  | nil =>
    rw [view_nil, Option.some.injEq, Prod.mk.injEq] at hview
    obtain rfl : b.route = parent := by
      have hlast := congrArg List.getLast? hview.1
      simpa using hlast
    rw [List.nil_append, attach]
    split
    · exact ⟨node b.route (setAmong (node r []) b.children), Traced.bind_outcome_eq_ok.mpr ⟨(), rfl,
        Traced.bind_outcome_eq_ok.mpr ⟨r, hr, Traced.bind_outcome_eq_ok.mpr ⟨(), rfl, rfl⟩⟩⟩⟩
    · exact ⟨node b.route (setAmong (node r []) b.children),
        Traced.bind_outcome_eq_ok.mpr ⟨r, hr, Traced.bind_outcome_eq_ok.mpr ⟨(), rfl, rfl⟩⟩⟩
  | cons s init ih =>
    rw [view] at hview
    obtain ⟨inner, hinner, hview⟩ := Option.bind_eq_some_iff.mp hview
    obtain ⟨v, hv, hsame⟩ := Option.map_eq_some_iff.mp hview
    obtain ⟨hlineage, hothers⟩ := Prod.mk.inj hsame
    obtain ⟨above', hv'⟩ : ∃ above', inner.view init = some (above' ++ [parent], others) := by
      have hne : v.1 ≠ [] := by
        have hlength := congrArg List.length (lineage_of_view hv)
        rw [List.length_map, List.length_map, List.length_inits] at hlength
        exact List.ne_nil_of_length_pos (hlength ▸ Nat.succ_pos _)
      have hlast := congrArg List.getLast? hlineage
      rw [List.getLast?_cons_of_ne_nil hne, List.getLast?_concat] at hlast
      obtain ⟨above', habove⟩ := List.getLast?_eq_some_iff.mp hlast
      exact ⟨above', by rw [hv, ← habove, ← hothers]⟩
    obtain ⟨c, hc⟩ := ih hv'
    obtain ⟨next, more, hnext⟩ := List.exists_cons_of_ne_nil (show init ++ [segment] ≠ [] by simp)
    rw [hnext] at hc
    rw [List.cons_append, hnext, attach, hinner]
    exact ⟨_, Traced.bind_outcome_eq_ok.mpr ⟨c, hc, rfl⟩⟩

/-- Parents that are the same but for their numbers get the same routes. -/
theorem child_unnumbered {id : Nat} (id' : Nat) {parent parent' r : Route} {segment : Text} {spec : RouteSpec}
    (hparent : parent.unnumbered = parent'.unnumbered) (h : (child id parent segment spec).outcome = .ok r) :
    ∃ r', (child id' parent' segment spec).outcome = .ok r' ∧ r.unnumbered = r'.unnumbered := by
  obtain ⟨pattern, hpattern, rfl⟩ := child_eq_ok_iff.mp h
  have hname : parent.name = parent'.name := (congrArg Route.name hparent :)
  have hdelimiter : parent.delimiter = parent'.delimiter := (congrArg Route.delimiter hparent :)
  have hfragment : parent.pattern = parent'.pattern := (congrArg Route.pattern hparent :)
  rw [hdelimiter, hfragment] at hpattern
  refine ⟨_, child_eq_ok_iff.mpr ⟨pattern, hpattern, rfl⟩, ?_⟩
  rw [Route.unnumbered, Route.unnumbered, Route.renumber, Route.renumber, hname, hdelimiter]

end Branch

namespace Tree

open Branch

/-- Whether a tree is made of some definitions: segments that lead to a route are those of a definition, whose route was
made below the one that its parent's segments lead to, and right below each route are the segments of the definitions
with that parent. -/
structure Lists (t : Tree) (routes : List Definition) : Prop where
  next : t.next = routes.length + 1
  found : ∀ {n v}, n ≠ [] → t.root.view n = some v → ∃ d ∈ routes, d.address = n
  made : ∀ {d}, d ∈ routes → ∃ above parent others r more id, t.root.view d.parent = some (above ++ [parent], others) ∧
    t.root.view d.address = some (above ++ [parent, r], more) ∧ (child id parent d.segment d.spec).outcome = .ok r
  below : ∀ {n v}, t.root.view n = some v → v.2 = (routes.filter (·.parent = n)).map Definition.segment

theorem lists_create {delimiter : Text} {t : Tree} (h : (create delimiter).outcome = .ok t) : t.Lists [] := by
  refine ⟨?_, ?_, nofun, ?_⟩
  · obtain ⟨pattern, -, h⟩ := Traced.bind_outcome_eq_ok.mp h
    rw [← Except.ok.inj h]
    rfl
  · intro n v hn hv
    exact absurd (view_of_create h hv).1 hn
  · intro n v hv
    rw [(view_of_create h hv).2]
    rfl

variable {t u : Tree} {routes : List Definition}

theorem Lists.not_prefix (ht : t.Lists routes) {d : Definition} (hnew : d.address ∉ routes.map Definition.address)
    {n : List Text} {v : Lineage × List Text} (hv : t.root.view n = some v) : ¬ d.address <+: n := by
  intro hpre
  obtain ⟨w, hw⟩ := exists_view_of_prefix hv hpre
  obtain ⟨e, he, haddress⟩ := ht.found d.address_ne_nil hw
  exact hnew (haddress ▸ List.mem_map_of_mem he)

/-- A definition with a new name is one more of the list. -/
theorem Lists.add (ht : t.Lists routes) {d : Definition} (hnamed : d.IsNamed)
    (hnew : d.address ∉ routes.map Definition.address) (h : (t.add (.dotted d.name) d.spec).outcome = .ok u) :
    u.Lists (routes ++ [d]) := by
  have hnext := (addsOne_of_add h).1
  obtain ⟨init, segment, above, parent, others, r, hnames, hparent, hr, hview, hkept, hcases⟩ :=
    view_of_add hnamed.split h
  obtain ⟨rfl, hlast⟩ := List.append_inj' (d.parent_concat_segment.trans hnames) rfl
  obtain rfl : d.segment = segment := (List.cons.inj hlast).1
  replace hkept : ∀ {n v}, t.root.view n = some v →
      u.root.view n = some (v.1, if n = d.parent then withSegment d.segment v.2 else v.2) :=
    fun hv => hkept _ _ (ht.not_prefix hnew hv) hv
  constructor
  · rw [hnext, List.length_append, List.length_singleton, ht.next]
  · intro n v hn hv
    rcases hcases _ _ hv with ⟨rfl, -⟩ | ⟨-, w, hw, -⟩
    · exact ⟨d, List.mem_append_right _ (List.mem_singleton.mpr rfl), rfl⟩
    · obtain ⟨e, he, haddress⟩ := ht.found hn hw
      exact ⟨e, List.mem_append_left _ he, haddress⟩
  · intro e he
    rcases List.mem_append.mp he with he | he
    · obtain ⟨above', parent', others', r', more, id, hp, ha, hr'⟩ := ht.made he
      exact ⟨above', parent', _, r', _, id, hkept hp, hkept ha, hr'⟩
    · obtain rfl := List.mem_singleton.mp he
      exact ⟨above, parent, _, r, _, t.next, hkept hparent, hview, hr⟩
  · intro n v hv
    rw [List.filter_append, List.map_append]
    rcases hcases _ _ hv with ⟨rfl, rfl⟩ | ⟨-, w, hw, rfl⟩
    · have hnone : routes.filter (·.parent = d.address) = [] := by
        rw [List.filter_eq_nil_iff]
        intro e he heq
        obtain ⟨above', parent', others', -, -, -, hp, -⟩ := ht.made he
        exact ht.not_prefix hnew hp (of_decide_eq_true heq ▸ List.prefix_refl _)
      have hself : ¬ d.parent = d.address := fun heq => d.not_address_prefix_parent (heq ▸ List.prefix_refl _)
      rw [hnone, List.filter_cons_of_neg (by simpa using hself)]
      rfl
    · dsimp only
      by_cases hn : n = d.parent
      · subst hn
        have hfresh : d.segment ∉ w.2 := by
          rw [ht.below hw]
          intro hmem
          obtain ⟨e, he, hsegment⟩ := List.mem_map.mp hmem
          obtain ⟨he, hsame⟩ := List.mem_filter.mp he
          apply hnew
          rw [← d.parent_concat_segment, ← of_decide_eq_true hsame, ← hsegment, e.parent_concat_segment]
          exact List.mem_map_of_mem he
        rw [if_pos rfl, withSegment_eq, if_neg hfresh, ← ht.below hw, List.filter_cons_of_pos (by simp)]
        rfl
      · rw [if_neg hn, ht.below hw, List.filter_cons_of_neg (by simpa using Ne.symm hn)]
        simp

theorem Lists.isSome_view_iff (ht : t.Lists routes) {n : List Text} (hn : n ≠ []) :
    (t.root.view n).isSome ↔ ∃ d ∈ routes, d.address = n := by
  rw [Option.isSome_iff_exists]
  constructor
  · rintro ⟨v, hv⟩
    exact ht.found hn hv
  · rintro ⟨d, hd, rfl⟩
    obtain ⟨above, parent, others, r, more, id, -, hview, -⟩ := ht.made hd
    exact ⟨_, hview⟩

section Agreement

variable {others : List Definition} (ht : t.Lists routes) (hu : u.Lists others)
  (hroot : t.root.route = u.root.route)
  (hsame : ∀ d ∈ routes, ∀ e ∈ others, d.address = e.address → d = e)

include ht hu hroot hsame

/-- Two trees that are made of the same definitions, each with more of its own, have the same routes but for the numbers
on the way down to each one that they both have. -/
theorem Lists.lineage_unnumbered {n : List Text} {v w : Lineage × List Text} (hv : t.root.view n = some v)
    (hw : u.root.view n = some w) : v.1.map Route.unnumbered = w.1.map Route.unnumbered := by
  induction n using List.reverseRecOn generalizing v w with
  | nil =>
    rw [view_nil, Option.some.injEq] at hv hw
    rw [← hv, ← hw, hroot]
  | append_singleton init segment ih =>
    obtain ⟨d, hd, hdn⟩ := ht.found (by simp) hv
    obtain ⟨e, he, hen⟩ := hu.found (by simp) hw
    obtain rfl := hsame d hd e he (hdn.trans hen.symm)
    obtain ⟨above, parent, others, r, more, id, hparent, hview, hr⟩ := ht.made hd
    obtain ⟨above', parent', others', r', more', id', hparent', hview', hr'⟩ := hu.made he
    rw [hdn, hv, Option.some.injEq] at hview
    rw [hdn, hw, Option.some.injEq] at hview'
    have hinit : d.parent = init := by rw [Definition.parent, hdn, List.dropLast_concat]
    rw [hinit] at hparent hparent'
    have habove := ih hparent hparent'
    rw [List.map_append, List.map_append] at habove
    obtain ⟨hsameAbove, hsameParent⟩ := List.append_inj' habove rfl
    obtain ⟨hsameParent, -⟩ := List.cons.inj hsameParent
    obtain ⟨r'', hr'', hsameRoute⟩ := child_unnumbered id' hsameParent hr
    obtain rfl : r'' = r' := Except.ok.inj (hr''.symm.trans hr')
    rw [hview, hview', List.map_append, List.map_append, hsameAbove, List.map_cons, List.map_cons, hsameParent,
      List.map_cons, List.map_cons, hsameRoute]

/-- Trees that are made of the same definitions, those with the same parent in the same order, are the same but for the
numbers. -/
theorem Lists.unnumbered_eq (hperm : routes.Perm others)
    (horder : ∀ n, routes.filter (·.parent = n) = others.filter (·.parent = n))
    (htapart : Apart t.root.children) (huapart : Apart u.root.children) :
    t.root.unnumbered = u.root.unnumbered := by
  apply eq_of_forall_view
  · rw [unnumbered, children_renumber]
    exact (apart_renumber _).mpr htapart
  · rw [unnumbered, children_renumber]
    exact (apart_renumber _).mpr huapart
  intro n
  have hisSome : (t.root.view n).isSome ↔ (u.root.view n).isSome := by
    by_cases hn : n = []
    · rw [hn]
      exact Iff.rfl
    · rw [ht.isSome_view_iff hn, hu.isSome_view_iff hn]
      simp only [hperm.mem_iff]
  rw [view_unnumbered, view_unnumbered]
  cases hv : t.root.view n with
  | none =>
    rw [hv] at hisSome
    have hnone : u.root.view n = none := by simpa using hisSome
    rw [hnone]
  | some v =>
    rw [hv] at hisSome
    obtain ⟨w, hw⟩ := Option.isSome_iff_exists.mp (hisSome.mp rfl)
    rw [hw, Option.map_some, Option.map_some, ht.lineage_unnumbered hu hroot hsame hv hw, ht.below hv, hu.below hw,
      horder]

omit hsame in
/-- If one tree is made of some definitions and another one of some of them, the parent of a further one among them, a
route can be added to the other tree for this one as well. -/
theorem Lists.exists_add {d : Definition} (hsubset : others ⊆ routes)
    (hdistinct : ∀ e ∈ routes, ∀ f ∈ routes, e.address = f.address → e = f) (hd : d ∈ routes) (hnamed : d.IsNamed)
    (hparent : ∀ e ∈ routes, e.address = d.parent → e ∈ others) :
    ∃ u', (u.add (.dotted d.name) d.spec).outcome = .ok u' := by
  obtain ⟨above, parent, siblings, r, more, id, hview, -, hr⟩ := ht.made hd
  have hisSome : ∃ w, u.root.view d.parent = some w := by
    by_cases hn : d.parent = []
    · rw [hn]
      exact ⟨_, view_nil _⟩
    · obtain ⟨e, he, haddress⟩ := ht.found hn hview
      exact Option.isSome_iff_exists.mp ((hu.isSome_view_iff hn).mpr ⟨e, hparent e he haddress, haddress⟩)
  obtain ⟨w, hw⟩ := hisSome
  have hsame := ht.lineage_unnumbered hu hroot (fun e he f hf => hdistinct e he f (hsubset hf)) hview hw
  obtain ⟨above', parent', hlineage⟩ : ∃ above' parent', w.1 = above' ++ [parent'] := by
    rcases List.eq_nil_or_concat w.1 with hnil | ⟨above', parent', hconcat⟩
    · simp [hnil] at hsame
    · exact ⟨above', parent', by rw [hconcat, List.concat_eq_append]⟩
  rw [hlineage, List.map_append, List.map_append] at hsame
  obtain ⟨hsameParent, -⟩ := List.cons.inj (List.append_inj' hsame rfl).2
  obtain ⟨r', hr', -⟩ := child_unnumbered u.next hsameParent hr
  have hview' : u.root.view d.parent = some (above' ++ [parent'], w.2) := by rw [hw, ← hlineage]
  obtain ⟨root, hroot'⟩ := exists_attach hview' hr'
  rw [d.parent_concat_segment] at hroot'
  exact ⟨_, Traced.bind_outcome_eq_ok.mpr ⟨d.address, hnamed.split, Traced.bind_outcome_eq_ok.mpr ⟨root, hroot', rfl⟩⟩⟩

end Agreement

end Tree

namespace Table

/-- A tree with definitions added one after the other is made of these as well. -/
theorem lists_of_addAll {r s : Router} {before routes : List Definition} (hr : r.tree.Lists before)
    (hnamed : ∀ d ∈ routes, d.IsNamed) (hdistinct : ((before ++ routes).map Definition.address).Nodup)
    (h : (addAll r routes).outcome = .ok s) : s.tree.Lists (before ++ routes) := by
  induction routes generalizing r before with
  | nil =>
    rw [addAll, Traced.outcome_pure, Except.ok.injEq] at h
    rw [← h, List.append_nil]
    exact hr
  | cons d rest ih =>
    obtain ⟨hd, hrest⟩ := List.forall_mem_cons.mp hnamed
    obtain ⟨tree, htree, h⟩ := addAll_cons_eq_ok.mp h
    have hnew : d.address ∉ before.map Definition.address := by
      intro hmem
      rw [List.map_append, List.map_cons] at hdistinct
      exact (List.nodup_append.mp hdistinct).2.2 _ hmem _ List.mem_cons_self rfl
    have hgrown : tree.Lists (before ++ [d]) := hr.add hd hnew htree
    rw [List.append_cons] at hdistinct ⊢
    exact ih (r := { r with tree }) hgrown hrest hdistinct h

end Table

end Routing
