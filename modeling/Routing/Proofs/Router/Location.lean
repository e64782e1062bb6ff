import Mathlib.Data.List.DropRight
import Mathlib.Data.List.Infix
import Routing.Proofs.Text.Cutting
import Routing.Proofs.Tree.Growth
import Routing.Router

/-!
# Locations of links

A link has the base path, the path of a route and the query. The location of a link is normalized to the path and the
query, without the base path, since a base path in normal form ends where the path starts (`normalize_withQuery`). Only
an index file at the end of the path is cut off as well (`dropIndex_append`).
-/

namespace Routing

/-! ### Base paths -/

namespace Text

theorem head?_strip_ne (t : Text) : (strip '/' t).head? ≠ some '/' := by
  have hpre : strip '/' t <+: dropLeading '/' t := List.rdropWhile_prefix _ _
  obtain ⟨more, hmore⟩ := hpre
  have hhead := head?_dropLeading_ne t
  rw [← hmore] at hhead
  cases hstrip : strip '/' t with
  | nil => nofun
  | cons c rest => simpa [hstrip] using hhead

theorem getLast?_strip_ne (t : Text) : (strip '/' t).getLast? ≠ some '/' := getLast?_dropTrailing_ne _

/-- Of slashes alone nothing is left. -/
theorem strip_eq_nil_iff {t : Text} : strip '/' t = [] ↔ ∀ c ∈ t, c = '/' := by
  have hall : strip '/' t = [] ↔ ∀ c ∈ dropLeading '/' t, c = '/' :=
    List.rdropWhile_eq_nil_iff.trans (by simp only [beq_iff_eq])
  have hnone : dropLeading '/' t = [] ↔ ∀ c ∈ t, c = '/' := by
    simp [dropLeading, List.dropWhile_eq_nil_iff]
  rw [hall, ← hnone]
  -- after its leading slashes a text does not start with one
  cases hdrop : dropLeading '/' t with
  | nil => simp
  | cons c rest =>
    have hhead := head?_dropLeading_ne t
    rw [hdrop] at hhead
    simpa using fun hc => absurd (congrArg some hc) hhead

end Text

/-- Whether a base path is in normal form. -/
def IsBase (base : Text) : Prop :=
  base = [] ∨ ∃ core, base = '/' :: core ∧ core ≠ [] ∧ core.head? ≠ some '/' ∧ core.getLast? ≠ some '/'

theorem isBase_normalizeBase (base : Text) : IsBase (normalizeBase base) := by
  simp only [normalizeBase, List.isEmpty_iff]
  split
  · exact Or.inl rfl
  · next hcore => exact Or.inr ⟨_, rfl, hcore, Text.head?_strip_ne base, Text.getLast?_strip_ne base⟩

theorem normalizeBase_of_isBase {base : Text} (h : IsBase base) : normalizeBase base = base := by
  rcases h with rfl | ⟨core, rfl, hne, hhead, hlast⟩
  · rfl
  · have hstrip : Text.strip '/' ('/' :: core) = core := Text.strip_of_ends_ne hhead hlast
    simp only [normalizeBase, hstrip, List.isEmpty_iff, hne, if_false]

/-! ### Paths and queries -/

/-- A path with the query behind it, unless that is empty. -/
def withQuery (path search : Text) : Text := if search.isEmpty then path else path ++ '?' :: search

/-- What a link to a path has before its query. The path is given without its slash. -/
def placeOf (base core : Text) : Text :=
  let place := base ++ (if core.isEmpty then [] else '/' :: core)
  if place.isEmpty then ['/'] else place

theorem placeOf_nil (base : Text) : placeOf base [] = if base.isEmpty then ['/'] else base := by
  simp only [placeOf, List.isEmpty_nil, if_true, List.append_nil]

theorem placeOf_of_ne_nil {core : Text} (h : core ≠ []) (base : Text) : placeOf base core = base ++ '/' :: core := by
  simp [placeOf, h]

theorem cut_withQuery {path : Text} (h : '?' ∉ path) (search : Text) :
    Text.cut '?' (withQuery path search) = (path, if search.isEmpty then none else some search) := by
  rw [withQuery]
  split
  · exact Text.cut_of_not_mem h
  · exact Text.cut_append h search

theorem LinkOptions.link_eq {o : LinkOptions} {settings : Settings} {base : Text} (hstart : o.start settings = base)
    (habsolute : o.absolute = false) (core : Text) (query : Option LinkQuery) :
    o.link settings (if core.isEmpty then [] else '/' :: core) query =
      withQuery (placeOf base core) (Query.serialize ((query.map LinkQuery.params).getD .empty)) := by
  simp only [LinkOptions.link, hstart, habsolute, withQuery, placeOf, Bool.false_eq_true, if_false]

namespace Router

theorem rooted_cons {core : Text} (h : core.head? ≠ some '/') : rooted ('/' :: core) = '/' :: core := by
  have hdrop : Text.dropLeading '/' ('/' :: core) = Text.dropLeading '/' core := rfl
  rw [rooted, hdrop, dropLeading_of_head_ne h]

theorem dropBase_append (base core : Text) : dropBase base (base ++ '/' :: core) = core := by
  rw [dropBase, if_pos (List.isPrefixOf_iff_prefix.mpr (List.prefix_append _ _)), List.drop_left]
  rfl

theorem dropBase_self (base : Text) : dropBase base base = [] := by
  rw [dropBase, if_pos (List.isPrefixOf_iff_prefix.mpr (List.prefix_refl _)), List.drop_length]

/-- The base path of a link is dropped, and nothing else. -/
theorem dropBase_rooted {base core : Text} (hbase : IsBase base) (hcore : core.head? ≠ some '/') :
    (if base.isEmpty then rooted (placeOf base core) else '/' :: dropBase base (rooted (placeOf base core))) =
      '/' :: core := by
  rcases hbase with rfl | ⟨inner, rfl, hne, hhead, -⟩
  · by_cases hnil : core = []
    · rw [hnil]
      rfl
    · rw [placeOf_of_ne_nil hnil]
      exact rooted_cons hcore
  · -- the base path has one slash at its start already, so that it stays as it is
    have hrooted : ∀ more, rooted ('/' :: inner ++ more) = '/' :: inner ++ more := by
      intro more
      have hmore : (inner ++ more).head? ≠ some '/' := by rwa [List.head?_append_of_ne_nil _ hne]
      exact rooted_cons hmore
    by_cases hnil : core = []
    · have hplace : placeOf ('/' :: inner) [] = '/' :: inner ++ [] := by rw [placeOf_nil, List.append_nil]; rfl
      rw [hnil, hplace, hrooted, List.append_nil, dropBase_self]
      rfl
    · rw [placeOf_of_ne_nil hnil, hrooted, dropBase_append]
      rfl

theorem not_mem_placeOf {c : Char} {base core : Text} (hslash : c ≠ '/') (hbase : c ∉ base) (hcore : c ∉ core) :
    c ∉ placeOf base core := by
  by_cases hnil : core = []
  · rw [hnil, placeOf_nil]
    split
    · simpa using hslash
    · exact hbase
  · rw [placeOf_of_ne_nil hnil]
    simp [hbase, hslash, hcore]

/-- A link is normalized to its path without the index file, and its query. -/
theorem normalize_withQuery {router : Router} (hbase : IsBase router.basePath) (hmark : '?' ∉ router.basePath)
    {core : Text} (hhead : core.head? ≠ some '/') (hcore : '?' ∉ core) (search : Text) :
    router.normalize (withQuery (placeOf router.basePath core) search) =
      withQuery (rooted (dropIndex router.settings.indexFile ('/' :: core))) search := by
  rw [normalize, cut_withQuery (not_mem_placeOf (by decide) hmark hcore)]
  simp only [dropBase_rooted hbase hhead]
  cases search <;> rfl

/-! ### Index files -/

/-- Whether a path ends in an index file. -/
def EndsInIndex (index path : Text) : Prop := index ≠ [] ∧ '/' :: index <:+ path

theorem dropIndex_of_not {index path : Text} (h : ¬ EndsInIndex index path) : dropIndex index path = path := by
  rw [dropIndex, if_neg]
  rw [Bool.and_eq_true, List.isSuffixOf_iff_suffix]
  simpa [EndsInIndex] using h

theorem dropIndex_append {index : Text} (h : index ≠ []) (before : Text) :
    dropIndex index (before ++ '/' :: index) = before ++ ['/'] := by
  have hsuffix : ('/' :: index).isSuffixOf (before ++ '/' :: index) = true :=
    List.isSuffixOf_iff_suffix.mpr (List.suffix_append _ _)
  have hlength : (before ++ '/' :: index).length - index.length = (before ++ ['/']).length := by
    simp only [List.length_append, List.length_cons, List.length_nil]
    omega
  rw [dropIndex, hsuffix, if_pos (by simpa using h), hlength, List.append_cons before '/' index, List.take_left]

theorem not_mem_dropIndex {c : Char} {index path : Text} (h : c ∉ path) : c ∉ dropIndex index path := by
  rw [dropIndex]
  split
  · exact fun hmem => h (List.mem_of_mem_take hmem)
  · exact h

theorem not_mem_rooted {c : Char} {path : Text} (hslash : c ≠ '/') (h : c ∉ path) : c ∉ rooted path := by
  rw [rooted, List.mem_cons, not_or]
  exact ⟨hslash, fun hmem => h ((List.dropWhile_sublist _).mem hmem)⟩

/-- What is left of a path that ends in an index file: nothing, or a text with a slash at its end. -/
theorem exists_rest_of_endsInIndex {index core : Text} (h : EndsInIndex index ('/' :: core))
    (hcore : core.head? ≠ some '/') : ∃ rest, core = rest ++ index ∧ (rest = [] ∨ rest.getLast? = some '/') ∧
      Text.dropLeading '/' (rooted (dropIndex index ('/' :: core))) = rest := by
  obtain ⟨hne, before, hbefore⟩ := h
  rw [← hbefore, dropIndex_append hne]
  cases before with
  | nil => exact ⟨[], (List.cons.inj hbefore).2.symm, Or.inl rfl, rfl⟩
  | cons c before =>
    obtain ⟨rfl, htail⟩ := List.cons.inj hbefore
    -- a second slash at the start would be dropped with the first, but there is none
    have hrest : (before ++ ['/']).head? ≠ some '/' := by
      rw [← htail] at hcore
      cases before with
      | nil => exact absurd rfl hcore
      | cons d before => exact hcore
    refine ⟨before ++ ['/'], by rw [← htail, List.append_assoc]; rfl, Or.inr List.getLast?_concat, ?_⟩
    rw [List.cons_append, rooted_cons hrest]
    exact dropLeading_of_head_ne hrest

theorem endsInIndex_path {index core : Text} :
    EndsInIndex index (if core.isEmpty then [] else '/' :: core) ↔ EndsInIndex index ('/' :: core) := by
  by_cases hcore : core = []
  · have hnone : ∀ {path : Text}, path.length ≤ 1 → ¬ EndsInIndex index path := by
      rintro path hlength ⟨hne, hsuffix⟩
      have hle := hsuffix.length_le
      rw [List.length_cons] at hle
      exact hne (List.length_eq_zero_iff.mp (by omega))
    rw [hcore]
    exact iff_of_false (hnone (Nat.zero_le _)) (hnone (Nat.le_refl _))
  · simp [hcore]

end Router

end Routing
