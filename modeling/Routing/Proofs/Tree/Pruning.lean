import Routing.Proofs.Pattern.Brackets
import Routing.Proofs.Pattern.Joining
import Routing.Proofs.Tree.Growth
import Routing.Proofs.Tree.Selection

/-!
# Pruning is sound

In a tree that grew, a route matches a beginning of every path that it matches (`starts_of_takes`), and a route above
another one matches a beginning of every path of which that one does (`starts_of_continues`): the text of its rule is
where the other one's text starts. So looking at the beginnings first loses no match (`matchPath_ignores_starts`).
-/

namespace Routing

open Pattern

namespace Route

/-- Whether the braces of a pattern are closed, its captures are expressions by themselves, and its path ends in no
query suffix. -/
structure IsTidy (r : Route) : Prop where
  braced : Braced r.pattern.path
  captures : ∀ c ∈ capturesOf r.pattern.tokens.tokens, ∃ e, Regex.read c = .ok e
  suffix : (splitSuffix r.pattern.path).2 = []

/-- The test of whether a route is tidy. -/
def tidy (r : Route) : Bool :=
  decide (Braced r.pattern.path) && (capturesOf r.pattern.tokens.tokens).all (fun c => (Regex.read c).isOk) &&
    (splitSuffix r.pattern.path).2.isEmpty

theorem isTidy_of_tidy {r : Route} (h : r.tidy = true) : r.IsTidy := by
  rw [tidy, Bool.and_eq_true, Bool.and_eq_true, decide_eq_true_iff, List.all_eq_true, List.isEmpty_iff] at h
  obtain ⟨⟨hbraced, hcaptures⟩, hsuffix⟩ := h
  refine ⟨hbraced, fun c hc => ?_, hsuffix⟩
  have hread := hcaptures c hc
  cases he : Regex.read c with
  | error e => rw [he] at hread; cases hread
  | ok e => exact ⟨e, rfl⟩

theorem starts_iff {path : Text} {r : Route} :
    r.starts path = true ↔ ∃ s, s ∈ r.pattern.entry.ways (.ofText path) := Regex.isSome_matchStart

/-- A route that matches a path matches a beginning of it. -/
theorem starts_of_takes {path : Text} {r : Route} (hr : r.IsMade) (h : r.takes path = true) : r.starts path = true := by
  obtain ⟨s, hs⟩ := Option.isSome_iff_exists.mp h
  have hway := (Regex.mem_ways_of_matchWhole hs).1
  rw [hr.assigned.whole_eq] at hway
  obtain ⟨u, hu, -⟩ := Regex.mem_ways_seq.mp hway
  exact starts_iff.mpr ⟨u, hu⟩

theorem tokens_of_path_nil {r : Route} (hr : r.IsMade) (h : r.pattern.path = []) : r.pattern.tokens.tokens = [] := by
  have ht := hr.assigned.tokens
  rw [h] at ht
  obtain ⟨parts, hparts, htokens⟩ := tokenize_eq_ok ht
  simp only [Part.scan, List.isEmpty_nil, if_true, Option.some.injEq] at hparts
  rw [htokens, ← hparts]
  simp [Part.Open.pieces, partsTokens]

/-- The empty pattern matches a beginning of every path. -/
theorem starts_of_path_nil {r : Route} (hr : r.IsMade) (h : r.pattern.path = []) (path : Text) :
    r.starts path = true := by
  have htokens := tokens_of_path_nil hr h
  have hread := hr.assigned.entry
  rw [hr.assigned.regex_eq, htokens, regexOf] at hread
  obtain ⟨reading, hsteps, -, hentry⟩ := Regex.read_eq_ok.mp hread
  rw [Regex.all_nil, Regex.Reading.steps_nil, Except.ok.injEq] at hsteps
  rw [starts_iff, hentry, ← hsteps]
  exact ⟨.ofText path, List.mem_singleton.mpr rfl⟩

/-- A route above another one matches a beginning of every path of which the other one does. -/
theorem starts_of_continues {path : Text} {r parent : Route} (hparent : parent.IsMade) (h : r.Continues parent)
    (hptidy : parent.IsTidy) (hrtidy : r.IsTidy) (hstarts : r.starts path = true) : parent.starts path = true := by
  have ha := hparent.assigned
  have hb := h.isMade.assigned
  rw [h.1] at hb
  rw [starts_iff] at hstarts ⊢
  rcases path_of_continues h hparent.head_ne_slash hptidy.suffix with hempty | hsame | ⟨more, hmore⟩
  · exact starts_iff.mp (starts_of_path_nil hparent hempty path)
  -- the same path has the same expression
  · have htokens : r.pattern.tokens = parent.pattern.tokens :=
      Except.ok.inj (hb.tokens.symm.trans (hsame ▸ ha.tokens))
    have hrule : r.pattern.rule = parent.pattern.rule := Except.ok.inj (hb.rule.symm.trans (htokens ▸ ha.rule))
    have hentry : r.pattern.entry = parent.pattern.entry := Except.ok.inj (hb.entry.symm.trans (hrule ▸ ha.entry))
    rwa [hentry] at hstarts
  -- the text of the longer rule starts with that of the shorter one, and both have their brackets closed
  · have hbtokens := hb.tokens
    rw [hmore] at hbtokens
    obtain ⟨rest, hrest⟩ := regexOf_of_slash hptidy.braced ha.tokens hbtokens
    have haread := ha.entry
    have hbread := hb.entry
    rw [ha.regex_eq] at haread
    rw [hb.regex_eq] at hbread
    have hadepth := depthAfter_regexOf hptidy.captures (oneEach_of_tokensRule ha.rule) haread
    have hbdepth := depthAfter_regexOf hrtidy.captures (oneEach_of_tokensRule hb.rule) hbread
    rw [hrest] at hbread hbdepth
    obtain ⟨parts, others, hea, heb⟩ := Regex.seqAll_of_read_append haread hbread hadepth hbdepth
    obtain ⟨s, hs⟩ := hstarts
    rw [heb] at hs
    obtain ⟨u, hu, -⟩ := Regex.mem_ways_seqAll_append.mp hs
    exact ⟨u, hea ▸ hu⟩

end Route

namespace Branch

/-- Where the routes above a place continue each other, the place is reached whenever its route matches a beginning of
the path. -/
theorem starts_of_mem_placesAmong {path : Text} {above : List Route} {parent : Route} {branches : List Branch}
    (hlinked : LinkedTo parent branches) (hparent : parent.IsMade)
    (habove : parent.starts path = true → above.all (Route.starts path) = true)
    (htidy : ∀ r ∈ parent :: routesOf branches, r.IsTidy) {p : Place} (hp : p ∈ placesAmong above branches) :
    p.route.IsMade ∧ (p.route.starts path = true → p.lineage.all (Route.starts path) = true) := by
  induction branches using branches_induction generalizing above parent with
  | nil => simp [placesAmong] at hp
  | cons route children rest ihc ih =>
    rw [LinkedTo] at hlinked
    obtain ⟨hcontinues, hchildren, hrest⟩ := hlinked
    simp only [routesOf, routes, List.cons_append, List.forall_mem_cons, List.forall_mem_append] at htidy
    obtain ⟨hptidy, hrtidy, hctidy, hresttidy⟩ := htidy
    have hstarts : route.starts path = true → (above ++ [route]).all (Route.starts path) = true := by
      intro h
      have hup := habove (Route.starts_of_continues hparent hcontinues hptidy hrtidy h)
      rw [List.all_append, hup]
      simp [h]
    rw [placesAmong, List.mem_append, List.mem_cons] at hp
    rcases hp with hp | rfl | hp
    · exact ihc hchildren hcontinues.isMade hstarts (List.forall_mem_cons.mpr ⟨hrtidy, hctidy⟩) hp
    · exact ⟨hcontinues.isMade, hstarts⟩
    · exact ih hrest hparent habove (List.forall_mem_cons.mpr ⟨hptidy, hresttidy⟩) hp

/-- In a tree that grew, a place accepts a path if its route matches it. -/
theorem accepts_eq_takes {delimiter : Text} {t : Tree} (ht : Grown delimiter t) (htidy : ∀ r ∈ t.root.routes, r.IsTidy)
    (path : Text) {p : Place} (hp : p ∈ t.root.postOrder) : p.accepts path = p.route.takes path := by
  obtain ⟨hmade, -, hlinked⟩ := linked_of_grown ht
  have hreached : p.route.IsMade ∧ (p.route.starts path = true → p.lineage.all (Route.starts path) = true) := by
    cases hroot : t.root with
    | node route children =>
      rw [hroot] at hmade hlinked htidy hp
      rw [postOrder, placesAmong, placesAmong, List.mem_append, List.mem_singleton] at hp
      rcases hp with hp | rfl
      · refine starts_of_mem_placesAmong hlinked hmade (fun h => ?_) (by rwa [routes] at htidy) hp
        simp [Branch.route] at h
        simp [h]
      · exact ⟨hmade, fun h => by simpa [Place.lineage] using h⟩
  rw [Place.accepts, Bool.and_eq_right_iff_imp]
  intro htakes
  exact hreached.2 (Route.starts_of_takes hreached.1 htakes)

/-- The first place that accepts a path is the first one whose route matches it. -/
theorem find?_accepts {delimiter : Text} {t : Tree} (ht : Grown delimiter t) (htidy : ∀ r ∈ t.root.routes, r.IsTidy)
    (path : Text) :
    t.root.postOrder.find? (Place.accepts path) = t.root.postOrder.find? fun p => p.route.takes path := by
  have heq : ∀ p ∈ t.root.postOrder, p.accepts path = p.route.takes path := by
    intro p hp
    exact accepts_eq_takes ht htidy path hp
  generalize t.root.postOrder = places at heq
  induction places with
  | nil => rfl
  | cons p rest ih =>
    rw [List.forall_mem_cons] at heq
    rw [List.find?_cons, List.find?_cons, heq.1, ih heq.2]

end Branch

end Routing
