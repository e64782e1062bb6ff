import Routing.Proofs.Pattern.Rule
import Routing.Proofs.Regex.Capture
import Routing.Tree

/-!
# Which route is selected

`Branch.postOrder` lists the places of a branch, those below a place before it. A place accepts a path if its route
matches the whole path and every route from the top down to it a beginning of the path. A branch is searched for the
first place that accepts the path (`select_eq_findSome`), so no place below the selected one accepts it
(`not_accepts_of_below`).

The search is refused where it comes to a match with a capture that ends before it starts (`Place.Refuses`). Only a
route with a possessive loop has such a match.
-/

namespace Routing

/-! ### Places in post-order -/

namespace Branch

/-- What holds of no branches, and of a branch before others if it holds of those below the branch and of the others. -/
@[elab_as_elim]
theorem branches_induction {motive : List Branch → Prop} (nil : motive [])
    (cons : ∀ route children rest, motive children → motive rest → motive (node route children :: rest)) :
    ∀ branches, motive branches
  | [] => nil
  | node route children :: rest =>
    cons route children rest (branches_induction nil cons children) (branches_induction nil cons rest)

/-- The places of some branches below some routes, those below a place before it. -/
def placesAmong (above : List Route) : List Branch → List Place
  | [] => []
  | node route children :: rest =>
    placesAmong (above ++ [route]) children ++ ⟨above, node route children⟩ :: placesAmong above rest

/-- The places of a branch, those below a place before it. -/
def postOrder (b : Branch) : List Place := placesAmong [] [b]

end Branch

namespace Route

/-- Whether the route, or one below it, may match the path. -/
def starts (path : Text) (r : Route) : Bool := (r.pattern.entry.matchStart path).isSome

/-- Whether the route matches the path. -/
def takes (path : Text) (r : Route) : Bool := (r.pattern.whole.matchWhole path).isSome

end Route

namespace Place

/-- The places below a place. -/
def below (p : Place) : List Place := Branch.placesAmong p.lineage p.branch.children

/-- Whether the route of the place matches the path, and every route down to it a beginning of it. -/
def accepts (path : Text) (p : Place) : Bool := p.lineage.all (Route.starts path) && p.route.takes path

/-- The selection of a place that accepts the path. -/
def selection (path : Text) (p : Place) : Option Branch.Selection :=
  if p.accepts path then (p.route.pattern.whole.matchWhole path).map fun found => ⟨p.above, p.route, found⟩ else none

/-- Whether a search that comes to the place is refused there, since a match of its route has a capture that ends
before it starts: the match of a beginning of the path or, if no place below accepts the path, that of the whole. -/
def Refuses (path : Text) (p : Place) : Prop :=
  p.above.all (Route.starts path) = true ∧
    ((p.route.pattern.entry.matchStart path).any p.route.pattern.entry.crosses = true ∨
      (∀ q ∈ p.below, q.accepts path = false) ∧
        (p.route.pattern.whole.matchWhole path).any p.route.pattern.whole.crosses = true)

theorem isSome_selection (path : Text) (p : Place) : (p.selection path).isSome = p.accepts path := by
  rw [selection]
  split
  · next h =>
    rw [Option.isSome_map, h]
    exact (Bool.and_eq_true_iff.mp h).2
  · next h => simpa using h

theorem selection_of_accepts {path : Text} {p : Place} (h : p.accepts path = true) :
    ∃ found, p.route.pattern.whole.matchWhole path = some found ∧
      p.selection path = some ⟨p.above, p.route, found⟩ := by
  obtain ⟨found, hfound⟩ := Option.isSome_iff_exists.mp (Bool.and_eq_true_iff.mp h).2
  exact ⟨found, hfound, by rw [selection, if_pos h, hfound]; rfl⟩

theorem accepts_eq_false_iff {path : Text} {p : Place} : p.accepts path = false ↔ p.selection path = none := by
  rw [← Option.isNone_iff_eq_none, ← Option.not_isSome, isSome_selection, Bool.not_eq_true']

end Place

namespace Branch

/-- The places below a place are all before it. -/
theorem below_subset_of_split {above : List Route} {branches : List Branch} {before after : List Place} {p : Place}
    (h : placesAmong above branches = before ++ p :: after) : p.below ⊆ before := by
  induction branches using branches_induction generalizing above before after with
  | nil => simp [placesAmong] at h
  | cons route children rest ihc ih =>
    rw [placesAmong] at h
    rcases List.append_eq_append_iff.mp h with ⟨more, hbefore, htail⟩ | ⟨more, hchildren, htail⟩
    · cases more with
      | nil =>
        rw [List.nil_append, List.cons.injEq] at htail
        rw [hbefore, ← htail.1, List.append_nil]
        exact List.Subset.refl _
      | cons q more =>
        rw [List.cons_append, List.cons.injEq] at htail
        rw [hbefore]
        intro x hx
        exact List.mem_append_right _ (List.mem_cons_of_mem _ (ih htail.2 hx))
    · cases more with
      | nil =>
        rw [List.nil_append, List.cons.injEq] at htail
        rw [← List.append_nil before, ← hchildren, htail.1]
        exact List.Subset.refl _
      | cons q more =>
        rw [List.cons_append, List.cons.injEq] at htail
        rw [← htail.1] at hchildren
        exact ihc hchildren

/-- No place below the first one that accepts the path accepts it. -/
theorem not_accepts_of_below {b : Branch} {path : Text} {p : Place}
    (h : b.postOrder.find? (Place.accepts path) = some p) : ∀ q ∈ p.below, q.accepts path = false := by
  obtain ⟨-, before, after, hsplit, hbefore⟩ := List.find?_eq_some_iff_append.mp h
  intro q hq
  simpa using hbefore q (below_subset_of_split hsplit hq)

/-! ### The search -/

/-- The selection as it is seen from further up. -/
def Selection.from (above : List Route) (s : Selection) : Selection := { s with above := above ++ s.above }

/-- Whether a search below some routes selects the first one of some places that accepts the path, or is refused at
one of the places before any other one accepts the path. -/
def Finds (path : Text) (above : List Route) (places : List Place) (found : Except RouteError (Option Selection)) :
    Prop :=
  found.map (Option.map (Selection.from above)) = .ok (places.findSome? (Place.selection path)) ∨
    found = .error .crossedCapture ∧ ∃ before p after, places = before ++ p.below ++ p :: after ∧
      (∀ q ∈ before, q.accepts path = false) ∧ p.Refuses path

/-- One search, and another one if it selects nothing. -/
def andThen (found next : Except RouteError (Option Selection)) : Except RouteError (Option Selection) := do
  match ← found with
  | some s => return some s
  | none => next

section Finds

variable {path : Text} {above : List Route} {places others : List Place}
  {found next : Except RouteError (Option Selection)}

/-- Some places are searched, and then others. -/
theorem Finds.append (h : Finds path above places found) (hnext : Finds path above others next) :
    Finds path above (places ++ others) (andThen found next) := by
  rcases h with h | ⟨rfl, before, p, after, rfl, hbefore, hp⟩
  · cases found with
    | error e => cases h
    | ok selected =>
      have hselected : selected.map (Selection.from above) = places.findSome? (Place.selection path) := Except.ok.inj h
      cases selected with
      | some s => exact Or.inl (by rw [List.findSome?_append, ← hselected]; rfl)
      | none =>
        rcases hnext with hnext | ⟨rfl, before, p, after, rfl, hbefore, hp⟩
        · apply Or.inl
          rw [List.findSome?_append, ← hselected]
          exact hnext
        · refine Or.inr ⟨rfl, places ++ before, p, after, by simp, ?_, hp⟩
          have hplaces := List.findSome?_eq_none_iff.mp hselected.symm
          exact List.forall_mem_append.mpr ⟨fun q hq => Place.accepts_eq_false_iff.mpr (hplaces q hq), hbefore⟩
  · exact Or.inr ⟨rfl, before, p, after ++ others, by simp, hbefore, hp⟩

/-- A search below a route and those above it. -/
theorem Finds.below {route : Route} (h : Finds path (above ++ [route]) places found) :
    Finds path above places (found.map (Option.map (Selection.from [route]))) := by
  rcases h with h | ⟨rfl, hrefused⟩
  · apply Or.inl
    rw [← h]
    cases found with
    | error e => rfl
    | ok selected => cases selected <;> simp [Except.map, Selection.from]
  · exact Or.inr ⟨rfl, hrefused⟩

end Finds

theorem findSome?_of_not_starts {path : Text} {above : List Route} {branches : List Branch} {r : Route}
    (hr : r ∈ above) (h : r.starts path = false) :
    (placesAmong above branches).findSome? (Place.selection path) = none := by
  have hall : ∀ p ∈ placesAmong above branches, above ⊆ p.above := by
    clear hr h
    induction branches using branches_induction generalizing above with
    | nil => simp [placesAmong]
    | cons route children rest ihc ih =>
      rw [placesAmong, List.forall_mem_append, List.forall_mem_cons]
      exact ⟨fun p hp => List.Subset.trans (List.subset_append_left _ _) (ihc p hp), List.Subset.refl _, ih⟩
  rw [List.findSome?_eq_none_iff]
  intro p hp
  have hnot : p.lineage.all (Route.starts path) = false := by
    rw [List.all_eq_false]
    exact ⟨r, List.mem_append_left _ (hall p hp hr), by simp [h]⟩
  rw [← Place.accepts_eq_false_iff, Place.accepts, hnot, Bool.false_and]

theorem sound_cases (r : Regex) (found : Option Regex.Cursor) :
    found.any r.crosses = true ∧ sound r found = .error .crossedCapture ∨
      found.any r.crosses = false ∧ sound r found = .ok found := by
  cases h : found.any r.crosses with
  | true => exact Or.inl ⟨rfl, by rw [sound, if_pos h]⟩
  | false => exact Or.inr ⟨rfl, by rw [sound, if_neg (by simp [h])]⟩

/-- What a route selects if nothing below it is selected. -/
def selectSelf (path : Text) (route : Route) : Except RouteError (Option Selection) :=
  (sound route.pattern.whole (route.pattern.whole.matchWhole path)).map (Option.map fun found => ⟨[], route, found⟩)

/-- The search of a branch whose route matches a beginning of the path. -/
theorem select_of_starts {path : Text} {route : Route} {children : List Branch} {start : Regex.Cursor}
    (h : sound route.pattern.entry (route.pattern.entry.matchStart path) = .ok (some start)) :
    (node route children).select path =
      andThen ((selectAmong path children).map (Option.map (Selection.from [route]))) (selectSelf path route) := by
  rw [select, h]
  cases selectAmong path children with
  | error e => rfl
  | ok selected => cases selected <;> rfl

/-- The search of a branch whose route matches a beginning of the path, given the search of those below it. -/
theorem Finds.node {path : Text} {above : List Route} {route : Route} {children : List Branch}
    {found : Except RouteError (Option Selection)} (habove : above.all (Route.starts path) = true)
    (hroute : route.starts path = true) (h : Finds path above (placesAmong (above ++ [route]) children) found) :
    Finds path above (placesAmong (above ++ [route]) children ++ [⟨above, node route children⟩])
      (andThen found (selectSelf path route)) := by
  rcases sound_cases route.pattern.whole (route.pattern.whole.matchWhole path) with ⟨hcross, hsound⟩ | ⟨-, hsound⟩
  · rcases h with h | ⟨rfl, before, p, after, hsplit, hbefore, hp⟩
    · cases found with
      | error e => cases h
      | ok selected =>
        have hselected := Except.ok.inj h
        cases selected with
        | some s => exact Or.inl (by rw [List.findSome?_append, ← hselected]; rfl)
        | none =>
          -- nothing below is selected, so the route itself is tried and refused
          have hnone := List.findSome?_eq_none_iff.mp hselected.symm
          refine Or.inr ⟨?_, [], ⟨above, .node route children⟩, [], rfl, nofun, habove, Or.inr ⟨?_, hcross⟩⟩
          · show selectSelf path route = _
            rw [selectSelf, hsound]
            rfl
          · intro q hq
            exact Place.accepts_eq_false_iff.mpr (hnone q hq)
    · exact Or.inr ⟨rfl, before, p, after ++ [⟨above, .node route children⟩], by simp [hsplit], hbefore, hp⟩
  · refine h.append (Or.inl ?_)
    rw [selectSelf, hsound, List.findSome?_singleton, Place.selection, Place.accepts, Place.lineage, List.all_append,
      habove]
    simp only [Place.route, Branch.route, List.all_cons, List.all_nil, hroute, Bool.true_and, Route.takes]
    cases route.pattern.whole.matchWhole path <;> simp [Except.map, Selection.from]

/-- The search of some branches below routes that all match a beginning of the path. -/
theorem finds_selectAmong {path : Text} {above : List Route} {branches : List Branch}
    (h : above.all (Route.starts path) = true) :
    Finds path above (placesAmong above branches) (selectAmong path branches) := by
  induction branches using branches_induction generalizing above with
  | nil => exact Or.inl (by simp [selectAmong, placesAmong, pure, Except.pure, Except.map])
  | cons route children rest ihc ih =>
    rw [selectAmong, placesAmong, List.append_cons]
    refine Finds.append ?_ (ih h)
    rcases sound_cases route.pattern.entry (route.pattern.entry.matchStart path) with ⟨hcross, hsound⟩ | ⟨-, hsound⟩
    · exact Or.inr ⟨by rw [select, hsound]; rfl, [], ⟨above, node route children⟩, [], rfl, nofun, h, Or.inl hcross⟩
    cases hstart : route.pattern.entry.matchStart path with
    | none =>
      -- the places of the branch are left out, and none of them accepts the path
      have hnot : route.starts path = false := by simp [Route.starts, hstart]
      have hself : Place.selection path ⟨above, node route children⟩ = none := by
        simp [Place.selection, Place.accepts, Place.lineage, Place.route, Branch.route, hnot]
      apply Or.inl
      rw [List.findSome?_append, findSome?_of_not_starts (List.mem_append_right _ (List.mem_singleton.mpr rfl)) hnot,
        List.findSome?_singleton, hself, select, hsound, hstart]
      rfl
    | some start =>
      have hroute : route.starts path = true := by simp [Route.starts, hstart]
      rw [hstart] at hsound
      rw [select_of_starts (by rw [hstart]; exact hsound)]
      exact Finds.node h hroute (ihc (by simp [h, hroute])).below

theorem selectAmong_singleton (path : Text) (b : Branch) : selectAmong path [b] = b.select path := by
  rw [selectAmong, selectAmong]
  cases b.select path with
  | error e => rfl
  | ok selected => cases selected <;> rfl

/-- A branch is searched for the first place that accepts the path. -/
theorem finds_select (path : Text) (b : Branch) : Finds path [] b.postOrder (b.select path) := by
  have h := @finds_selectAmong path [] [b] rfl
  rwa [selectAmong_singleton] at h

/-- Only a route with a possessive loop refuses a path. -/
theorem hasPossessive_of_refuses {path : Text} {p : Place} (h : p.Refuses path) :
    p.route.pattern.entry.hasPossessive = true ∨ p.route.pattern.whole.hasPossessive = true := by
  have hsound : ∀ (e : Regex) (found : Option Regex.Cursor), found.any e.crosses = true →
      sound e found ≠ .ok found := by
    intro e found hcross
    rw [sound, if_pos hcross]
    intro h
    cases h
  rcases h.2 with hcross | ⟨-, hcross⟩
  · refine Or.inl (Bool.of_not_eq_false fun hnone => ?_)
    exact hsound _ _ hcross (Regex.sound_matchStart hnone path)
  · refine Or.inr (Bool.of_not_eq_false fun hnone => ?_)
    exact hsound _ _ hcross (Regex.sound_matchWhole hnone path)

/-- What is selected is a match of the first place that accepts the path. -/
theorem findSome?_selection {path : Text} {places : List Place} {first : Option Place}
    (h : places.find? (Place.accepts path) = first) :
    match first with
    | none => places.findSome? (Place.selection path) = none
    | some p => ∃ found, p.route.pattern.whole.matchWhole path = some found ∧
        places.findSome? (Place.selection path) = some ⟨p.above, p.route, found⟩ := by
  have hnone : ∀ others : List Place, (∀ q ∈ others, q.accepts path = false) →
      others.findSome? (Place.selection path) = none := by
    intro others hothers
    rw [List.findSome?_eq_none_iff]
    intro q hq
    exact Place.accepts_eq_false_iff.mp (hothers q hq)
  cases first with
  | none => exact hnone places fun q hq => by simpa using List.find?_eq_none.mp h q hq
  | some p =>
    obtain ⟨haccepts, before, after, rfl, hbefore⟩ := List.find?_eq_some_iff_append.mp h
    obtain ⟨found, hfound, hselection⟩ := Place.selection_of_accepts haccepts
    refine ⟨found, hfound, ?_⟩
    rw [List.findSome?_append, hnone before fun q hq => by simpa using hbefore q hq, List.findSome?_cons, hselection]
    rfl

/-- The match that a selection gives. -/
def Selection.matched (s : Selection) (query given : Mapping Value) : Except RouteError Matched :=
  (s.route.values s.found).map fun values => ⟨s.above, s.route, s.route.mergeParams values (s.queryParams query given)⟩

theorem Selection.matched_eq_ok {s : Selection} {query given : Mapping Value} {m : Matched}
    (h : s.matched query given = .ok m) : ∃ values, s.route.values s.found = .ok values ∧
      m = ⟨s.above, s.route, s.route.mergeParams values (s.queryParams query given)⟩ := by
  rw [matched] at h
  cases hvalues : s.route.values s.found with
  | error e =>
    rw [hvalues] at h
    cases h
  | ok values =>
    rw [hvalues] at h
    exact ⟨values, rfl, (Except.ok.inj h).symm⟩

theorem Selection.lineage_of_matched {s : Selection} {query given : Mapping Value} {m : Matched}
    (h : s.matched query given = .ok m) : m.above ++ [m.route] = s.above ++ [s.route] := by
  obtain ⟨values, -, rfl⟩ := matched_eq_ok h
  rfl

theorem outcome_matchPath_of_select {b : Branch} {path : Text} {selected : Option Selection}
    (h : b.select path = .ok selected) (query given : Mapping Value) :
    (b.matchPath path query given).outcome = selected.elim (.ok none) fun s => (s.matched query given).map some := by
  rw [matchPath, Traced.outcome_bind, h]
  show (_ : Traced _).outcome = _
  cases selected with
  | none => rfl
  | some s =>
    simp only [Option.elim, Selection.matched, Traced.outcome_bind]
    cases s.route.values s.found <;> rfl

theorem outcome_matchPath_of_error {b : Branch} {path : Text} {e : RouteError} (h : b.select path = .error e)
    (query given : Mapping Value) : (b.matchPath path query given).outcome = .error e := by
  rw [matchPath, Traced.outcome_bind, h]
  rfl

/-- Matching a path against a branch gives the match of what the search for a place selects, unless the search is
refused. -/
theorem outcome_matchPath_cases (b : Branch) (path : Text) (query given : Mapping Value) :
    (b.matchPath path query given).outcome =
        (b.postOrder.findSome? (Place.selection path)).elim (.ok none) (fun s => (s.matched query given).map some) ∨
      (b.matchPath path query given).outcome = .error .crossedCapture ∧ ∃ before p after,
        b.postOrder = before ++ p.below ++ p :: after ∧ (∀ q ∈ before, q.accepts path = false) ∧ p.Refuses path ∧
        (p.route.pattern.entry.hasPossessive = true ∨ p.route.pattern.whole.hasPossessive = true) := by
  rcases finds_select path b with hselect | ⟨herror, before, p, after, hsplit, hbefore, hp⟩
  · have hok : b.select path = .ok (b.postOrder.findSome? (Place.selection path)) := by
      rw [← hselect]
      cases b.select path with
      | error e => rfl
      | ok selected => cases selected <;> rfl
    exact Or.inl (outcome_matchPath_of_select hok query given)
  · exact Or.inr ⟨outcome_matchPath_of_error herror query given, before, p, after, hsplit, hbefore, hp,
      hasPossessive_of_refuses hp⟩

end Branch

end Routing
