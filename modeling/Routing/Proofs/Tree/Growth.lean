import Routing.Proofs.Pattern.QuerySuffix
import Routing.Proofs.Route.Assign
import Routing.Proofs.Text.Cutting
import Routing.Tree

/-!
# Trees that grew

A tree that grew from a root by adding routes (`Grown`) is linked: the pattern of every route below another one is the
continuation of that one's pattern by some fragment (`linked_of_grown`). The path of the continuation is the path
that it continues, or that path with a slash and more (`path_of_continues`).
-/

namespace Routing

open Pattern

/-- The trees that the root with the empty pattern grows into when routes are added. -/
inductive Grown (delimiter : Text) : Tree → Prop
  | create {t} (h : (Tree.create delimiter).outcome = .ok t) : Grown delimiter t
  | add {t u name spec} (ht : Grown delimiter t) (h : (t.add name spec).outcome = .ok u) : Grown delimiter u
  | addBelow {t u start name spec} (ht : Grown delimiter t) (h : (t.addBelow start name spec).outcome = .ok u) :
    Grown delimiter u

/-- The tree that the root grows into when some routes are added one after the other. -/
def Tree.ofRoutes (delimiter : Text) (routes : List (RouteName × RouteSpec)) : Traced Tree := do
  routes.foldlM (fun t r => t.add r.1 r.2) (← Tree.create delimiter)

theorem grown_ofRoutes {delimiter : Text} {routes : List (RouteName × RouteSpec)} {t : Tree}
    (h : (Tree.ofRoutes delimiter routes).outcome = .ok t) : Grown delimiter t := by
  replace h := Traced.bind_outcome_eq_ok.mp h
  obtain ⟨root, hroot, h⟩ := h
  have hgrown : Grown delimiter root := .create hroot
  clear hroot
  induction routes generalizing root with
  | nil =>
    rw [List.foldlM_nil, Traced.outcome_pure, Except.ok.injEq] at h
    exact h ▸ hgrown
  | cons r routes ih =>
    rw [List.foldlM_cons] at h
    obtain ⟨grown, hadd, h⟩ := Traced.bind_outcome_eq_ok.mp h
    exact ih grown h (.add hgrown hadd)

theorem head?_dropLeading_ne (t : Text) : (Text.dropLeading '/' t).head? ≠ some '/' := by
  intro hhead
  have := List.head?_dropWhile_not (· == '/') t
  rw [Text.dropLeading] at hhead
  rw [hhead] at this
  cases this

theorem getLast?_dropTrailing_ne (t : Text) : (Text.dropTrailing '/' t).getLast? ≠ some '/' := by
  rw [Text.dropTrailing, List.getLast?_reverse]
  exact head?_dropLeading_ne _

namespace Route

/-- Whether the pattern of a route is written by some text. -/
def IsMade (r : Route) : Prop := ∃ source, (RoutePattern.ofText r.delimiter source).outcome = .ok r.pattern

/-- Whether the pattern of a route continues that of another one. -/
def Continues (r parent : Route) : Prop :=
  r.delimiter = parent.delimiter ∧
    ∃ fragment, (RoutePattern.ofText parent.delimiter (parent.pattern.extend fragment)).outcome = .ok r.pattern

theorem Continues.isMade {r parent : Route} (h : r.Continues parent) : r.IsMade := by
  obtain ⟨hdelimiter, fragment, hpattern⟩ := h
  exact ⟨_, hdelimiter ▸ hpattern⟩

theorem IsMade.assigned {r : Route} (h : r.IsMade) : r.pattern.Assigned r.delimiter := by
  obtain ⟨source, hsource⟩ := h
  exact (RoutePattern.assign_eq_ok (RoutePattern.ofText_eq_ok hsource)).1

theorem IsMade.head_ne_slash {r : Route} (h : r.IsMade) : r.pattern.path.head? ≠ some '/' := by
  obtain ⟨source, hsource⟩ := h
  rw [(RoutePattern.assign_eq_ok (RoutePattern.ofText_eq_ok hsource)).2.1]
  exact head?_dropLeading_ne _

end Route

namespace Branch

/-- Whether each of some branches below a route continues it, and so do those below them. -/
def LinkedTo (parent : Route) : List Branch → Prop
  | [] => True
  | node route children :: rest => route.Continues parent ∧ LinkedTo route children ∧ LinkedTo parent rest

theorem linkedTo_cons {parent : Route} {b : Branch} {rest : List Branch} :
    LinkedTo parent (b :: rest) ↔ b.route.Continues parent ∧ LinkedTo b.route b.children ∧ LinkedTo parent rest := by
  cases b
  rw [LinkedTo]
  rfl

theorem linkedTo_of_mem {parent : Route} {b : Branch} {branches : List Branch} (h : LinkedTo parent branches)
    (hb : b ∈ branches) : b.route.Continues parent ∧ LinkedTo b.route b.children := by
  induction branches with
  | nil => cases hb
  | cons first rest ih =>
    obtain ⟨hcontinues, hchildren, hrest⟩ := linkedTo_cons.mp h
    rcases List.mem_cons.mp hb with rfl | hb
    · exact ⟨hcontinues, hchildren⟩
    · exact ih hrest hb

theorem linkedTo_setAmong {parent : Route} {b : Branch} {branches : List Branch} (h : LinkedTo parent branches)
    (hb : b.route.Continues parent) (hchildren : LinkedTo b.route b.children) :
    LinkedTo parent (setAmong b branches) := by
  induction branches with
  | nil => exact linkedTo_cons.mpr ⟨hb, hchildren, by simp [LinkedTo]⟩
  | cons first rest ih =>
    obtain ⟨hfirst, hbelow, hrest⟩ := linkedTo_cons.mp h
    rw [setAmong]
    split
    · exact linkedTo_cons.mpr ⟨hb, hchildren, hrest⟩
    · exact linkedTo_cons.mpr ⟨hfirst, hbelow, ih hrest⟩

theorem mem_of_named {segment : Text} {branches : List Branch} {b : Branch} (h : named segment branches = some b) :
    b ∈ branches := List.mem_of_find?_eq_some h

theorem child_continues {id : Nat} {parent r : Route} {segment : Text} {spec : RouteSpec}
    (h : (child id parent segment spec).outcome = .ok r) : r.Continues parent := by
  obtain ⟨pattern, hpattern, hr⟩ := Traced.bind_outcome_eq_ok.mp h
  rw [Traced.outcome_pure, Except.ok.injEq] at hr
  rw [← hr]
  exact ⟨rfl, spec.pattern, hpattern⟩

/-- What adding a route right below a branch gives: whether it replaces a route of the same segment or not, the new one
is made from the route above. -/
theorem attach_singleton_eq_ok {id : Nat} {spec : RouteSpec} {b c : Branch} {segment : Text}
    (h : (attach id spec b [segment]).outcome = .ok c) :
    ∃ r, (child id b.route segment spec).outcome = .ok r ∧ c = node b.route (setAmong (node r []) b.children) := by
  rw [attach] at h
  obtain ⟨r, hr, h⟩ : ∃ r, (child id b.route segment spec).outcome = .ok r ∧ _ := by
    split at h
    · obtain ⟨-, -, h⟩ := Traced.bind_outcome_eq_ok.mp h
      exact Traced.bind_outcome_eq_ok.mp h
    · exact Traced.bind_outcome_eq_ok.mp h
  obtain ⟨-, -, h⟩ := Traced.bind_outcome_eq_ok.mp h
  rw [Traced.outcome_pure, Except.ok.injEq] at h
  exact ⟨r, hr, h.symm⟩

/-- What adding a route further down gives. -/
theorem attach_cons_eq_ok {id : Nat} {spec : RouteSpec} {b c : Branch} {segment next : Text} {rest : List Text}
    (h : (attach id spec b (segment :: next :: rest)).outcome = .ok c) :
    ∃ inner changed, named segment b.children = some inner ∧
      (attach id spec inner (next :: rest)).outcome = .ok changed ∧ c = node b.route (setAmong changed b.children) := by
  rw [attach] at h
  split at h
  · next inner hinner =>
    obtain ⟨changed, hchanged, h⟩ := Traced.bind_outcome_eq_ok.mp h
    rw [Traced.outcome_pure, Except.ok.injEq] at h
    exact ⟨inner, changed, hinner, hchanged, h.symm⟩
  · cases h

/-- What a change further down gives. -/
theorem changeAt_cons_eq_ok {α : Type} {change : Branch → Traced (Branch × α)} {b c : Branch} {a : α} {segment : Text}
    {rest : List Text} (h : (changeAt change b (segment :: rest)).outcome = .ok (c, a)) :
    ∃ inner changed, named segment b.children = some inner ∧
      (changeAt change inner rest).outcome = .ok (changed, a) ∧ c = node b.route (setAmong changed b.children) := by
  rw [changeAt] at h
  split at h
  · next inner hinner =>
    obtain ⟨⟨changed, a'⟩, hchanged, h⟩ := Traced.bind_outcome_eq_ok.mp h
    rw [Traced.outcome_pure, Except.ok.injEq, Prod.mk.injEq] at h
    exact ⟨inner, changed, hinner, h.2 ▸ hchanged, h.1.symm⟩
  · cases h

/-- Adding a route below a branch leaves its route alone and what is below it linked. -/
theorem attach_linked {id : Nat} {spec : RouteSpec} {b c : Branch} {names : List Text}
    (h : (attach id spec b names).outcome = .ok c) (hb : LinkedTo b.route b.children) :
    c.route = b.route ∧ LinkedTo c.route c.children := by
  induction names generalizing b c with
  | nil => cases h
  | cons segment rest ih =>
    cases rest with
    | nil =>
      obtain ⟨r, hr, rfl⟩ := attach_singleton_eq_ok h
      exact ⟨rfl, linkedTo_setAmong hb (child_continues hr) (by simp [children, LinkedTo])⟩
    | cons next rest =>
      obtain ⟨inner, changed, hinner, hchanged, rfl⟩ := attach_cons_eq_ok h
      obtain ⟨hcontinues, hbelow⟩ := linkedTo_of_mem hb (mem_of_named hinner)
      obtain ⟨hroute, hlinked⟩ := ih hchanged hbelow
      exact ⟨rfl, linkedTo_setAmong hb (hroute ▸ hcontinues) hlinked⟩

/-- A change of a branch further down that leaves its route alone and what is below it linked does so further up. -/
theorem changeAt_linked {α : Type} {change : Branch → Traced (Branch × α)}
    (hchange : ∀ b c a, (change b).outcome = .ok (c, a) → LinkedTo b.route b.children →
      c.route = b.route ∧ LinkedTo c.route c.children)
    {b c : Branch} {a : α} {names : List Text} (h : (changeAt change b names).outcome = .ok (c, a))
    (hb : LinkedTo b.route b.children) : c.route = b.route ∧ LinkedTo c.route c.children := by
  induction names generalizing b c a with
  | nil => exact hchange b c a (by rwa [changeAt] at h) hb
  | cons segment rest ih =>
    obtain ⟨inner, changed, hinner, hchanged, rfl⟩ := changeAt_cons_eq_ok h
    obtain ⟨hcontinues, hbelow⟩ := linkedTo_of_mem hb (mem_of_named hinner)
    obtain ⟨hroute, hlinked⟩ := ih hchanged hbelow
    exact ⟨rfl, linkedTo_setAmong hb (hroute ▸ hcontinues) hlinked⟩

end Branch

/-- A tree that grew has a root with the empty path, and all other routes continue the one above them. -/
theorem linked_of_grown {delimiter : Text} {t : Tree} (h : Grown delimiter t) :
    t.root.route.IsMade ∧ t.root.route.pattern.path = [] ∧ Branch.LinkedTo t.root.route t.root.children := by
  induction h with
  | create h =>
    obtain ⟨pattern, hpattern, h⟩ := Traced.bind_outcome_eq_ok.mp h
    rw [Traced.outcome_pure, Except.ok.injEq] at h
    rw [← h]
    refine ⟨⟨[], hpattern⟩, ?_, by simp [Branch.children, Branch.LinkedTo]⟩
    exact (RoutePattern.assign_eq_ok (RoutePattern.ofText_eq_ok hpattern)).2.1
  | add ht h ih =>
    obtain ⟨hmade, hpath, hlinked⟩ := ih
    obtain ⟨names, -, h⟩ := Traced.bind_outcome_eq_ok.mp h
    obtain ⟨root, hroot, h⟩ := Traced.bind_outcome_eq_ok.mp h
    rw [Traced.outcome_pure, Except.ok.injEq] at h
    obtain ⟨hroute, hlinked⟩ := Branch.attach_linked hroot hlinked
    rw [← h]
    exact ⟨hroute ▸ hmade, hroute ▸ hpath, hlinked⟩
  | addBelow ht h ih =>
    obtain ⟨hmade, hpath, hlinked⟩ := ih
    obtain ⟨⟨root, a⟩, hroot, h⟩ := Traced.bind_outcome_eq_ok.mp h
    rw [Traced.outcome_pure, Except.ok.injEq] at h
    have hchange := Branch.changeAt_linked ?_ hroot hlinked
    · rw [← h]
      exact ⟨hchange.1 ▸ hmade, hchange.1 ▸ hpath, hchange.2⟩
    · intro b c a hattach hb
      obtain ⟨names, -, hattach⟩ := Traced.bind_outcome_eq_ok.mp hattach
      obtain ⟨grown, hgrown, hattach⟩ := Traced.bind_outcome_eq_ok.mp hattach
      rw [Traced.outcome_pure, Except.ok.injEq, Prod.mk.injEq] at hattach
      rw [← hattach.1]
      exact Branch.attach_linked hgrown hb

/-! ### Paths of continuations -/

/-- A path that is continued by a path is followed by a slash. -/
theorem path_of_extend {p q : RoutePattern} {delimiter fragment : Text} (hp : p.path ≠ [])
    (hhead : p.path.head? ≠ some '/') (hfragment : Text.dropLeading '/' (splitSuffix fragment).1 ≠ [])
    (h : (RoutePattern.ofText delimiter (p.extend fragment)).outcome = .ok q) :
    ∃ more, q.path = p.path ++ '/' :: more := by
  have hpath := (RoutePattern.assign_eq_ok (RoutePattern.ofText_eq_ok h)).2.1
  simp only [RoutePattern.extend, List.isEmpty_iff, hp, hfragment, if_false] at hpath
  rw [List.append_assoc, List.cons_append, splitSuffix_slash] at hpath
  refine ⟨_, hpath.trans (dropLeading_of_head_ne ?_)⟩
  obtain ⟨c, path, hpath⟩ := List.exists_cons_of_ne_nil hp
  rw [hpath] at hhead ⊢
  exact hhead

/-- A path that is continued by no path stays, unless it ends in a query suffix. -/
theorem path_of_extend_nil {p q : RoutePattern} {delimiter fragment : Text} (hhead : p.path.head? ≠ some '/')
    (hsuffix : (splitSuffix p.path).2 = []) (hfragment : Text.dropLeading '/' (splitSuffix fragment).1 = [])
    (h : (RoutePattern.ofText delimiter (p.extend fragment)).outcome = .ok q) : q.path = p.path := by
  have hpath := (RoutePattern.assign_eq_ok (RoutePattern.ofText_eq_ok h)).2.1
  have hjoined : p.extend fragment = p.path ++ writeSuffix (splitSuffix fragment).2 := by
    rw [RoutePattern.extend, hfragment]
    by_cases hempty : p.path = [] <;> simp [hempty]
  rw [hpath, hjoined]
  -- an empty path adds no slash, only names of query parameters
  by_cases hnames : (splitSuffix fragment).2 = []
  · rw [hnames]
    simp only [writeSuffix, List.isEmpty_nil, if_true, List.append_nil]
    rw [splitSuffix_of_nil hsuffix, dropLeading_of_head_ne hhead]
  · rw [splitSuffix_written _ hnames (isName_of_splitSuffix fragment)]
    exact dropLeading_of_head_ne hhead

/-- What a pattern is continued to. -/
theorem path_of_continues {r parent : Route} (h : r.Continues parent) (hhead : parent.pattern.path.head? ≠ some '/')
    (hsuffix : (splitSuffix parent.pattern.path).2 = []) :
    parent.pattern.path = [] ∨ r.pattern.path = parent.pattern.path ∨
      ∃ more, r.pattern.path = parent.pattern.path ++ '/' :: more := by
  obtain ⟨-, fragment, hpattern⟩ := h
  by_cases hempty : parent.pattern.path = []
  · exact Or.inl hempty
  apply Or.inr
  by_cases hfragment : Text.dropLeading '/' (splitSuffix fragment).1 = []
  · exact Or.inl (path_of_extend_nil hhead hsuffix hfragment hpattern)
  · exact Or.inr (path_of_extend hempty hhead hfragment hpattern)

end Routing
