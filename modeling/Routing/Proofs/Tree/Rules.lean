import Routing.Proofs.Pattern.Joining
import Routing.Proofs.Tree.Edges

/-!
# Rules along a tree

A route that is added below a parent continues the parent's path after a slash, so its rule is that of the parent, a
slash and more (`rule_of_joined`). The text of the rule and the variables start with those of the parent.
-/

namespace Routing

open Pattern

/-- The rule of a pattern that was assigned again and again is that of its path, if the path has one: the path is
always the last one, and the rule is that of the last path with one. -/
theorem RoutePattern.Reached.rule_eq {delimiter : Text} {sources : List Text} {p : RoutePattern} {rule : Rule}
    (h : Reached delimiter sources p) (hrule : (ruleTraced delimiter p.path).outcome = .ok rule) : p.rule = rule := by
  have hlatest := h.holdsLatest
  rcases List.eq_nil_or_concat sources with rfl | ⟨before, source, rfl⟩
  · exact absurd hlatest.path nofun
  rw [List.concat_eq_append] at hlatest
  have hpath : pathOf source = p.path := by simpa [Latest] using hlatest.path
  have hread : readRule delimiter source = some rule := by
    obtain ⟨tokens, htokens, hrule⟩ := ruleTraced_eq_ok.mp hrule
    rw [readRule, readTokens, hpath, htokens]
    simp [Except.toOption, hrule]
  simpa [Latest, hread, eq_comm] using hlatest.rule

/-- The path and the query names of a pattern are those of the last text that was assigned. -/
theorem RoutePattern.Reached.exists_source {delimiter : Text} {sources : List Text} {p : RoutePattern}
    (h : Reached delimiter sources p) : ∃ source, p.path = pathOf source ∧ p.queryNames = (splitSuffix source).2 := by
  have hlatest := h.holdsLatest
  rcases List.eq_nil_or_concat' sources with rfl | ⟨before, source, rfl⟩
  · exact absurd hlatest.path nofun
  · exact ⟨source, by simpa [Latest, eq_comm] using hlatest.path, by simpa [Latest, eq_comm] using hlatest.queryNames⟩

/-- A path that was assigned starts with no slash. -/
theorem RoutePattern.Reached.head_ne_slash {delimiter : Text} {sources : List Text} {p : RoutePattern}
    (h : Reached delimiter sources p) : p.path.head? ≠ some '/' := by
  obtain ⟨source, hpath, -⟩ := h.exists_source
  rw [hpath]
  exact head?_dropLeading_ne _

/-- A route that is made from a parent with a rule has a rule that starts with it. -/
theorem rule_of_child {id : Nat} {parent r : Route} {segment : Text} {spec : RouteSpec} {rule : Rule}
    (h : (Branch.child id parent segment spec).outcome = .ok r) (hhead : parent.pattern.path.head? ≠ some '/')
    (hbraced : Braced parent.pattern.path)
    (hrule : (ruleTraced parent.delimiter parent.pattern.path).outcome = .ok rule) (hpath : parent.pattern.path ≠ [])
    (hfragment : Text.dropLeading '/' (splitSuffix spec.pattern).1 ≠ [] ∨ (splitSuffix parent.pattern.path).2 = []) :
    rule.regex <+: r.pattern.rule.regex ∧ rule.vars <+: r.pattern.rule.vars := by
  obtain ⟨pattern, hpattern, hr⟩ := Traced.bind_outcome_eq_ok.mp h
  rw [Traced.outcome_pure, Except.ok.injEq] at hr
  rw [← hr]
  have hassigned := (RoutePattern.assign_eq_ok (RoutePattern.ofText_eq_ok hpattern)).1
  have hown := ruleTraced_eq_ok.mpr ⟨_, hassigned.tokens, hassigned.rule⟩
  by_cases hadded : Text.dropLeading '/' (splitSuffix spec.pattern).1 = []
  · have hsame := path_of_extend_nil hhead (hfragment.resolve_left fun h => h hadded) hadded hpattern
    rw [hsame, hrule, Except.ok.injEq] at hown
    rw [hown]
    exact ⟨List.prefix_refl _, List.prefix_refl _⟩
  · obtain ⟨more, hmore⟩ := path_of_extend hpath hhead hadded hpattern
    rw [hmore] at hown
    obtain ⟨g, -, -, hjoined⟩ := (ruleTraced_of_slash hbraced hrule).mp hown
    rw [hjoined]
    exact ⟨List.prefix_append _ _, List.prefix_append _ _⟩

/-- The rule of a pattern `p` whose braces are closed, a slash and any other pattern `f` is that of `p`, a slash and that
of `f`; it is there exactly if `f` has one and shares no variable with `p`. So every route that is added below a parent
with the path `p` has a rule that starts with the parent's. The route is added by a fragment with a path, or `p` ends in
no query suffix, which would be cut off it otherwise. -/
theorem rule_of_joined {delimiter p : Text} {rule : Rule} (hp : Braced p)
    (hrule : (ruleTraced delimiter p).outcome = .ok rule) :
    (∀ f joined, (ruleTraced delimiter (p ++ '/' :: f)).outcome = .ok joined ↔
      ∃ g, (ruleTraced delimiter f).outcome = .ok g ∧ rule.names.Disjoint g.names ∧
        joined = ⟨rule.regex ++ '/' :: g.regex, rule.vars ++ g.vars⟩) ∧
    ∀ t u spec, Lives delimiter t →
      ((∃ name, (t.add name spec).outcome = .ok u) ∨ ∃ start name, (t.addBelow start name spec).outcome = .ok u) →
      ∃ parent r, t.Adds spec parent r u ∧ (parent.pattern.path = p → p ≠ [] →
        Text.dropLeading '/' (splitSuffix spec.pattern).1 ≠ [] ∨ (splitSuffix p).2 = [] →
        parent.pattern.rule.regex <+: r.pattern.rule.regex ∧ parent.pattern.rule.vars <+: r.pattern.rule.vars) := by
  refine ⟨fun f joined => ruleTraced_of_slash hp hrule, fun t u spec ht hadd => ?_⟩
  obtain ⟨parent, r, hadds⟩ : ∃ parent r, t.Adds spec parent r u := by
    rcases hadd with ⟨name, hadd⟩ | ⟨start, name, hadd⟩
    · exact Tree.exists_adds_of_add hadd
    · exact Tree.exists_adds_of_addBelow hadd
  refine ⟨parent, r, hadds, ?_⟩
  rintro rfl hpath hfragment
  obtain ⟨rfl, sources, hreached⟩ := reached_of_lives ht parent hadds.gains.parent_mem
  obtain ⟨segment, hmade⟩ := hadds.gains.made
  rw [hreached.rule_eq hrule]
  exact rule_of_child hmade hreached.head_ne_slash hp hrule hpath hfragment

/-- The rule of `{i:\d}/[x]` is that of `{i:\d}`, a slash and that of `[x]`, and the rule of a route with the pattern `[x]`
below one with the pattern `{i:\d}` starts with that one's. -/
theorem group_after_variable_is_joined : ∃ rule t u parent r, Braced "\x7bi:\\d\x7d".toList ∧
    (ruleTraced ['/'] "\x7bi:\\d\x7d".toList).outcome = .ok rule ∧
    (ruleTraced ['/'] "\x7bi:\\d\x7d/[x]".toList).outcome = .ok ⟨"(\\d)/(?:x)?".toList, [⟨['i'], none⟩]⟩ ∧
    Lives ['/'] t ∧ (t.add (.dotted "a.b".toList) { pattern := "[x]".toList }).outcome = .ok u ∧
    t.Adds { pattern := "[x]".toList } parent r u ∧ parent.pattern.path = "\x7bi:\\d\x7d".toList ∧
    parent.pattern.rule.regex <+: r.pattern.rule.regex ∧ parent.pattern.rule.vars <+: r.pattern.rule.vars := by
  have hrun : (Tree.create ['/']).Gives fun t =>
      (t.add (.dotted "a".toList) { pattern := "\x7bi:\\d\x7d".toList }).Gives fun t =>
      (t.add (.dotted "a.b".toList) { pattern := "[x]".toList }).Gives fun u =>
      u.root.edges.all (fun e => e.2.id != t.next || e.1.pattern.path == "\x7bi:\\d\x7d".toList) = true := by
    cbv
  have hbraced : Braced "\x7bi:\\d\x7d".toList := by decide
  have hrule : (ruleTraced ['/'] "\x7bi:\\d\x7d".toList).outcome = .ok ⟨"(\\d)".toList, [⟨['i'], none⟩]⟩ := by cbv
  have hgroup : (ruleTraced ['/'] "[x]".toList).outcome = .ok ⟨"(?:x)?".toList, []⟩ := by cbv
  have hfragment : Text.dropLeading '/' (splitSuffix "[x]".toList).1 = "[x]".toList := by cbv
  obtain ⟨t₀, hcreate, hrun⟩ := Traced.exists_of_gives hrun
  obtain ⟨t, ha, hrun⟩ := Traced.exists_of_gives hrun
  obtain ⟨u, hb, hedges⟩ := Traced.exists_of_gives hrun
  have hlives : Lives ['/'] t := .add (.create hcreate) ha
  obtain ⟨hjoined, hbelow⟩ := rule_of_joined hbraced hrule
  obtain ⟨parent, r, hadds, hprefix⟩ := hbelow t u _ hlives (Or.inl ⟨_, hb⟩)
  have hpath : parent.pattern.path = "\x7bi:\\d\x7d".toList := by
    obtain ⟨segment, hmade⟩ := hadds.gains.made
    have hedge := List.all_eq_true.mp hedges _ hadds.gains.edge
    simpa [Branch.id_of_child hmade] using hedge
  refine ⟨_, t, u, parent, r, hbraced, hrule, ?_, hlives, hb, hadds, hpath, hprefix hpath (by decide) (Or.inl fun h => ?_)⟩
  · exact (hjoined "[x]".toList _).mpr ⟨_, hgroup, by simp [Rule.names], rfl⟩
  · exact absurd (hfragment.symm.trans h) (by decide)

end Routing
