import Routing.Command
import Routing.Proofs.Table.Building
import Routing.Proofs.Tree.Seams

/-!
# Listed patterns

A query suffix that is written after any path is split off again. The pattern of a route is split like the text that
was last assigned to the route: what is left has no suffix of its own unless query names were split off it
(`Reached.splitSuffix_written`). So the list of all routes shows patterns that are split into the path and the query
names of their routes, whatever the routes went through before (`splitSuffix_of_listed`).
-/

namespace Routing

open Pattern RoutePattern

/-- Splitting the text of a pattern that was assigned again and again gives its path and its query names. -/
theorem RoutePattern.Reached.splitSuffix_written {delimiter : Text} {sources : List Text} {p : RoutePattern}
    (h : Reached delimiter sources p) : splitSuffix p.written = (p.path, p.queryNames) := by
  obtain ⟨source, hpath, hnames⟩ := h.exists_source
  rw [written, hpath, hnames]
  by_cases hnil : (splitSuffix source).2 = []
  · rw [hnil, writeSuffix, if_pos (by rfl), List.append_nil, splitSuffix_pathOf hnil]
  · exact Pattern.splitSuffix_written _ hnil (isName_of_splitSuffix source)

/-- The tree of a table's router lives. -/
theorem Table.lives_of_build {t : Table} {settings : Settings} {r : Router} (h : (t.build settings).outcome = .ok r) :
    Lives (givenOr none settings.delimiter) r.tree := by
  obtain ⟨tree, htree, h⟩ := build_eq_ok.mp h
  exact (exists_of_addAll (fun _ _ _ _ ht hadd => .add ht hadd) h (.create htree)).1

theorem Branch.mem_routes_of_mem_walk {b : Branch} {r : Route} (h : r ∈ b.walk) : r ∈ b.routes := by
  rw [routes_eq]
  exact List.mem_cons_of_mem _ h

namespace Command

/-- Splitting undoes writing: a suffix with some names that is written after a path is split off again, whatever the
path is. So the text of a route's pattern, its path and its suffix, is split into just these two, for every route of a
tree that lives, and these are the texts that the list of all routes shows, one on each line. -/
theorem splitSuffix_of_listed :
    (∀ (p : Text) (names : List Text), names ≠ [] → (∀ n ∈ names, IsName n) →
      splitSuffix (p ++ '?' :: Text.join ['&'] (names.map fun n => '\x7b' :: n ++ ['\x7d'])) = (p, names)) ∧
    (∀ (delimiter : Text) (t : Tree), Lives delimiter t → ∀ s ∈ t.root.routes,
      splitSuffix s.pattern.written = (s.pattern.path, s.pattern.queryNames)) ∧
    ∀ (delimiter : Text) (r : Router), Lives delimiter r.tree → List.Forall₂ (fun s line => ∃ text,
        line = Text.padRight 24 s.name ++ " /".toList ++
          (if r.settings.highlightPatterns then Highlight.highlight text else text) ∧
        splitSuffix text = (s.pattern.path, s.pattern.queryNames))
      r.tree.root.walk (listing r) := by
  have hroutes : ∀ (delimiter : Text) (t : Tree), Lives delimiter t → ∀ s ∈ t.root.routes,
      splitSuffix s.pattern.written = (s.pattern.path, s.pattern.queryNames) := by
    intro delimiter t ht s hs
    obtain ⟨-, sources, hreached⟩ := reached_of_lives ht s hs
    exact hreached.splitSuffix_written
  refine ⟨fun p names hne hnames => ?_, hroutes, fun delimiter r hr => ?_⟩
  · have hsplit := Pattern.splitSuffix_written p hne hnames
    rwa [writeSuffix, if_neg (by simpa using hne)] at hsplit
  · rw [listing, List.forall₂_map_right_iff, List.forall₂_same]
    exact fun s hs => ⟨s.pattern.written, rfl, hroutes _ _ hr s (Branch.mem_routes_of_mem_walk hs)⟩

/-- A route with question marks and an open brace in its path, and one below it that adds nothing but a suffix. -/
theorem suffix_below_question_is_listed :
    splitSuffix "a?\x7bx\x7d?\n\x7b?\x7bi\x7d&\x7bj\x7d".toList = ("a?\x7bx\x7d?\n\x7b".toList, [['i'], ['j']]) ∧
    ∃ r s, Lives ['/'] r.tree ∧ s ∈ r.tree.root.routes ∧
      splitSuffix s.pattern.written = ("a?\x7b?\x7bi:\\d\x7d".toList, [['z'], ['k']]) ∧
      ∃ line ∈ listing r, ∃ text, line = "a.b                      /".toList ++ text ∧
        splitSuffix text = ("a?\x7b?\x7bi:\\d\x7d".toList, [['z'], ['k']]) := by
  have hrun : (Table.build { routes := [
        { name := "a".toList, pattern := "a?\x7b?\x7bi:\\d\x7d?\x7by\x7d".toList },
        { name := "a.b".toList, pattern := "?\x7bz\x7d&\x7bk\x7d".toList }] } { highlightPatterns := false }).Gives
      fun r => r.settings.highlightPatterns = false ∧ ∃ above s, r.tree.root.walk = [above, s] ∧ s.name = "a.b".toList ∧
        s.pattern.path = "a?\x7b?\x7bi:\\d\x7d".toList ∧ s.pattern.queryNames = [['z'], ['k']] := by
    cbv
    exact ⟨_, _, rfl, rfl, rfl, rfl⟩
  obtain ⟨r, hbuild, hplain, above, s, hwalk, hname, hpath, hnames⟩ := Traced.exists_of_gives hrun
  obtain ⟨hwritten, hroutes, hlisting⟩ := splitSuffix_of_listed
  have hlives : Lives ['/'] r.tree := Table.lives_of_build hbuild
  have hs : s ∈ r.tree.root.routes := Branch.mem_routes_of_mem_walk (hwalk ▸ by simp)
  have hsplit := hroutes _ _ hlives s hs
  have hlines := hlisting _ _ hlives
  rw [hwalk] at hlines
  generalize hshown : listing r = lines at hlines
  obtain _ | ⟨-, _ | ⟨⟨text, hline, htext⟩, _⟩⟩ := hlines
  rw [hpath, hnames] at hsplit htext
  refine ⟨hwritten "a?\x7bx\x7d?\n\x7b".toList [['i'], ['j']] (by simp) (by simp [IsName]; decide), r, s, hlives, hs,
    hsplit, _, hshown ▸ List.mem_cons_of_mem _ List.mem_cons_self, text, ?_, htext⟩
  rw [hline, hplain, hname]
  rfl

end Command

end Routing
