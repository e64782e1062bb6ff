import Routing.Proofs.Router.Rooting
import Routing.Proofs.Router.Single

/-!
# Base paths end where segments end

A location without its base path is treated as it is by a router that has none, and so is a location that does not lie
below the base path (`normalize_below`, `normalize_beside`). A base path that only starts a segment is no base path of
the location. That the slashes at the seam count differently in the two routers makes no difference, as an index file is
cut off behind any number of slashes (`rooted_dropIndex`).
-/

namespace Routing

/-! ### The parts of a location -/

/-- The part of a location before its query. -/
def pathPart (location : Text) : Text := location.takeWhile (· ≠ '?')

/-- The query of a location, with its question mark. -/
def queryPart (location : Text) : Text := location.dropWhile (· ≠ '?')

theorem cut_location (location : Text) :
    Text.cut '?' location = (pathPart location, (queryPart location).tail?) :=
  Text.cut_eq location

theorem not_mem_pathPart (location : Text) : '?' ∉ pathPart location :=
  fun hmem => by simpa using List.mem_takeWhile_imp hmem

/-- Whether a text is nothing, or a question mark with a query behind it. -/
def IsQueryPart (t : Text) : Prop := t = [] ∨ ∃ search, t = '?' :: search

theorem isQueryPart_queryPart (location : Text) : IsQueryPart (queryPart location) := by
  cases hquery : queryPart location with
  | nil => exact Or.inl rfl
  | cons c search =>
    have hmark := List.head?_dropWhile_not (fun c => decide (c ≠ '?')) location
    rw [show location.dropWhile (fun c => decide (c ≠ '?')) = c :: search from hquery] at hmark
    exact Or.inr ⟨search, by simpa using hmark⟩

/-- A path and a query are the parts of the location that has them. -/
theorem parts_append {path query : Text} (hpath : '?' ∉ path) (hquery : IsQueryPart query) :
    pathPart (path ++ query) = path ∧ queryPart (path ++ query) = query := by
  have hall : ∀ c ∈ path, decide (c ≠ '?') = true := by
    intro c hc
    rw [decide_eq_true_iff]
    rintro rfl
    exact hpath hc
  rw [pathPart, queryPart, List.takeWhile_append_of_pos hall, List.dropWhile_append_of_pos hall]
  rcases hquery with rfl | ⟨search, rfl⟩ <;> simp

theorem parts_withQuery {path : Text} (h : '?' ∉ path) (search : Text) :
    pathPart (withQuery path search) = path ∧
      queryPart (withQuery path search) = if search.isEmpty then [] else '?' :: search := by
  have hlocation : withQuery path search = path ++ if search.isEmpty then [] else '?' :: search := by
    rw [withQuery]
    split
    · rw [List.append_nil]
    · rfl
  rw [hlocation]
  apply parts_append h
  split
  · exact Or.inl rfl
  · exact Or.inr ⟨search, rfl⟩

namespace Router

/-! ### Slashes and index files -/

theorem rooted_slash (t : Text) : rooted ('/' :: t) = rooted t := rfl

/-- One slash more at the start of a path makes no difference to an index file at its end. -/
theorem rooted_dropIndex_slash {index : Text} (h : '/' ∉ index) (t : Text) :
    rooted (dropIndex index ('/' :: '/' :: t)) = rooted (dropIndex index ('/' :: t)) := by
  by_cases hindex : EndsInIndex index ('/' :: t)
  · obtain ⟨hne, before, hbefore⟩ := hindex
    rw [← hbefore, ← List.cons_append, dropIndex_append hne, dropIndex_append hne]
    rfl
  · have hmore : ¬ EndsInIndex index ('/' :: '/' :: t) := by
      rintro ⟨hne, hsuffix⟩
      rcases List.suffix_cons_iff.mp hsuffix with heq | hsuffix
      · exact h ((List.cons.inj heq).2 ▸ List.mem_cons_self)
      · exact hindex ⟨hne, hsuffix⟩
    rw [dropIndex_of_not hindex, dropIndex_of_not hmore]
    rfl

theorem rooted_dropIndex {index : Text} (h : '/' ∉ index) (t : Text) :
    rooted (dropIndex index ('/' :: t)) = rooted (dropIndex index (rooted t)) := by
  induction t with
  | nil => rfl
  | cons c t ih =>
    by_cases hc : c = '/'
    · rw [hc, rooted_dropIndex_slash h, ih, rooted_slash]
    · have hhead : (c :: t).head? ≠ some '/' := by simpa using hc
      rw [show rooted (c :: t) = '/' :: c :: t from congrArg _ (dropLeading_of_head_ne hhead)]

theorem rooted_rooted (t : Text) : rooted (rooted t) = rooted t := rooted_cons (head?_dropLeading_ne t)

theorem isRooted_rooted (t : Text) : IsRooted (rooted t) := ⟨_, rfl, head?_dropLeading_ne t⟩

/-! ### Base paths -/

/-- Whether a text behind a base path starts at the border of a segment: there is none, or it starts with a slash. -/
def AtBorder (rest : Text) : Prop := rest = [] ∨ rest.head? = some '/'

/-- A base path is dropped together with the slash behind it. -/
theorem dropBase_of_atBorder {base rest : Text} (h : AtBorder rest) :
    rooted ('/' :: dropBase base (base ++ rest)) = rooted rest := by
  rcases h with rfl | hhead
  · rw [List.append_nil, dropBase_self, rooted_slash]
  · obtain ⟨core, rfl⟩ := List.head?_eq_some_iff.mp hhead
    rw [dropBase_append, rooted_slash]

/-- Behind anything else a base path is kept. A line break at the end of a path would count as its end. -/
theorem dropBase_of_not_atBorder {base path : Text} (hline : '\n' ∉ path)
    (h : ∀ rest, path = base ++ rest → ¬ AtBorder rest) : dropBase base path = path := by
  rw [dropBase]
  split
  · next hprefix =>
    obtain ⟨rest, rfl⟩ := List.isPrefixOf_iff_prefix.mp hprefix
    have hborder := h rest rfl
    rw [List.drop_left]
    split
    · exact absurd (Or.inl rfl) hborder
    · exact absurd (by simp) hline
    · exact absurd (Or.inr rfl) hborder
    · rfl
  · rfl

theorem not_mem_dropBase {c : Char} {base path : Text} (h : c ∉ path) : c ∉ dropBase base path := by
  rw [dropBase]
  split
  · have hdrop : c ∉ path.drop base.length := fun hmem => h (List.mem_of_mem_drop hmem)
    split <;> simp_all
  · exact h

/-! ### Locations in normal form -/

/-- The path of a location as it is below a base path. -/
def belowBase (base path : Text) : Text :=
  if base.isEmpty then rooted path else '/' :: dropBase base (rooted path)

theorem normalize_eq (r : Router) (location : Text) :
    r.normalize location =
      withQuery (rooted (dropIndex r.settings.indexFile (belowBase r.basePath (pathPart location))))
        (queryPart location).tail := by
  rw [normalize, cut_location]
  rcases isQueryPart_queryPart location with hnone | ⟨_ | ⟨c, search⟩, hsome⟩
  · rw [hnone]
    rfl
  · rw [hsome]
    rfl
  · rw [hsome]
    rfl

/-- The router without its base path. -/
def withoutBase (r : Router) : Router := { r with basePath := [] }

theorem normalize_withoutBase (r : Router) (location : Text) :
    r.withoutBase.normalize location =
      withQuery (rooted (dropIndex r.settings.indexFile (rooted (pathPart location)))) (queryPart location).tail :=
  normalize_eq r.withoutBase location

section Normalize

variable {r : Router} {location : Text}

/-- Below the base path a location is treated as what is left of it without the base path. -/
theorem normalize_below (hindex : '/' ∉ r.settings.indexFile) {rest : Text}
    (hrest : rooted (pathPart location) = r.basePath ++ rest) (hborder : AtBorder rest) :
    r.normalize location = r.withoutBase.normalize (rest ++ queryPart location) := by
  have hmark : '?' ∉ rest := by
    have hpath : '?' ∉ rooted (pathPart location) := not_mem_rooted (by decide) (not_mem_pathPart location)
    rw [hrest] at hpath
    exact fun hmem => hpath (List.mem_append_right _ hmem)
  obtain ⟨hpath, hquery⟩ := parts_append hmark (isQueryPart_queryPart location)
  rw [normalize_withoutBase, hpath, hquery, normalize_eq, belowBase]
  split
  · next hnone =>
    rw [List.isEmpty_iff.mp hnone, List.nil_append] at hrest
    rw [← hrest, rooted_rooted]
  · rw [hrest, rooted_dropIndex hindex, ← rooted_slash (dropBase _ _), dropBase_of_atBorder hborder]

/-- Beside the base path a location is treated as it is. -/
theorem normalize_beside (hindex : '/' ∉ r.settings.indexFile) (hline : '\n' ∉ location)
    (h : ∀ rest, rooted (pathPart location) = r.basePath ++ rest → ¬ AtBorder rest) :
    r.normalize location = r.withoutBase.normalize location := by
  have hpath : '\n' ∉ rooted (pathPart location) :=
    not_mem_rooted (by decide) fun hmem => hline ((List.takeWhile_prefix _).mem hmem)
  rw [normalize_withoutBase, normalize_eq, belowBase, dropBase_of_not_atBorder hpath h]
  split
  · rfl
  · rw [rooted_dropIndex hindex, rooted_rooted]

/-- A location in normal form has one slash at the start of its path, and the query of the location, unless this is
nothing but a question mark. -/
theorem parts_normalize (r : Router) (location : Text) :
    IsRooted (pathPart (r.normalize location)) ∧
      queryPart (r.normalize location) = if queryPart location = ['?'] then [] else queryPart location := by
  have hpath : '?' ∉ belowBase r.basePath (pathPart location) := by
    have hrooted : '?' ∉ rooted (pathPart location) := not_mem_rooted (by decide) (not_mem_pathPart location)
    rw [belowBase]
    split
    · exact hrooted
    · rw [List.mem_cons, not_or]
      exact ⟨by decide, not_mem_dropBase hrooted⟩
  have hmark : '?' ∉ rooted (dropIndex r.settings.indexFile (belowBase r.basePath (pathPart location))) :=
    not_mem_rooted (by decide) (not_mem_dropIndex hpath)
  obtain ⟨hfirst, hsecond⟩ := parts_withQuery hmark (queryPart location).tail
  rw [normalize_eq, hfirst, hsecond]
  refine ⟨isRooted_rooted _, ?_⟩
  rcases isQueryPart_queryPart location with hnone | ⟨_ | ⟨c, search⟩, hsome⟩
  · rw [hnone]
    rfl
  · rw [hsome]
    rfl
  · rw [hsome]
    simp

/-- The base path is taken off a location that goes on behind it at the border of a segment, and off no other one. The
path that is left has one slash at its start, and the query stays as it is unless it is empty. -/
theorem normalize_at_border (r : Router) (hindex : '/' ∉ r.settings.indexFile) (hline : '\n' ∉ location) :
    (∀ rest, rooted (pathPart location) = r.basePath ++ rest → AtBorder rest →
        r.normalize location = r.withoutBase.normalize (rest ++ queryPart location)) ∧
      ((∀ rest, rooted (pathPart location) = r.basePath ++ rest → ¬ AtBorder rest) →
        r.normalize location = r.withoutBase.normalize location) ∧
      IsRooted (pathPart (r.normalize location)) ∧
      queryPart (r.normalize location) = if queryPart location = ['?'] then [] else queryPart location :=
  ⟨fun _ => normalize_below hindex, normalize_beside hindex hline, parts_normalize r location⟩

end Normalize

/-- The base path `/a.b`: more slashes before it and behind it, and a segment that only starts with it. -/
theorem base_path_with_dot_is_dropped :
    ∃ router : Router, router.basePath = "/a.b".toList ∧ router.settings.indexFile = "index.html".toList ∧
      router.normalize "//a.b//x/index.html?p=/a.b?".toList =
        router.withoutBase.normalize "//x/index.html?p=/a.b?".toList ∧
      router.normalize "//a.b//x/index.html?p=/a.b?".toList = "/x/?p=/a.b?".toList ∧
      router.normalize "a.bc?".toList = router.withoutBase.normalize "a.bc?".toList ∧
      router.normalize "a.bc?".toList = "/a.bc".toList := by
  obtain ⟨tree, -, -, -⟩ := exists_create (List.cons_ne_nil '/' [])
  have hindex : '/' ∉ "index.html".toList := by decide
  refine ⟨{ settings := {}, basePath := "/a.b".toList, tree }, rfl, rfl, ?_, by cbv, ?_, by cbv⟩
  · exact (normalize_at_border _ hindex (by decide)).1 "//x/index.html".toList (by cbv) (Or.inr rfl)
  · refine (normalize_at_border _ hindex (by decide)).2.1 fun rest hrest hborder => ?_
    have hc : rest = ['c'] := List.append_cancel_left (hrest.symm.trans (by cbv : _ = "/a.b".toList ++ ['c']))
    rw [hc] at hborder
    exact absurd hborder (by simp [AtBorder])

end Router

end Routing
