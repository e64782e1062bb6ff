import Mathlib.Data.List.Chain
import Mathlib.Data.List.DropRight
import Routing.Proofs.Tree.Rules

/-!
# Seams between patterns

The path of a route below another one is the path above, a slash and what is added. The slashes in front of what is
added are dropped, but those at the end of the path above stay: the seam has one slash more than that path has at its
end (`path_of_joined`). So the two are joined by a single slash exactly if the path above ends with none.

No seam has two slashes in a tree whose routes are all added by fragments without two slashes in a row and without one
at the end (`isSeamless_ofRoutes`).
-/

namespace Routing

open Pattern

/-! ### Slashes at the end -/

namespace Text

/-- The number of slashes at the end of a text. -/
def slashesAtEnd (t : Text) : Nat := (t.rtakeWhile (· == '/')).length

theorem dropTrailing_append_slashes (t : Text) :
    dropTrailing '/' t ++ List.replicate (slashesAtEnd t) '/' = t :=
  dropTrailing_append_replicate '/' t

theorem slashesAtEnd_eq_zero_iff {t : Text} : slashesAtEnd t = 0 ↔ t.getLast? ≠ some '/' := by
  rw [slashesAtEnd, List.length_eq_zero_iff, List.rtakeWhile_eq_nil_iff]
  rcases List.eq_nil_or_concat t with rfl | ⟨start, c, rfl⟩ <;> simp

end Text

/-! ### Joining -/

namespace RoutePattern

variable {p q : RoutePattern} {delimiter fragment : Text}

/-- The path above and the one that is added, with the slashes that are between them when they are joined. -/
def seam (above added : Text) : Text :=
  Text.dropTrailing '/' above ++ List.replicate (Text.slashesAtEnd above + 1) '/' ++ added

theorem seam_eq (above added : Text) : seam above added = above ++ '/' :: added := by
  rw [seam, List.replicate_succ', ← List.append_assoc, Text.dropTrailing_append_slashes, List.append_assoc]
  rfl

/-- The seam is a single slash if the path above ends with none, and only then. -/
theorem seam_eq_single_iff {above added : Text} :
    seam above added = Text.dropTrailing '/' above ++ '/' :: added ↔ above.getLast? ≠ some '/' := by
  rw [← Text.slashesAtEnd_eq_zero_iff, seam]
  constructor
  · intro h
    have hlength := congrArg List.length h
    simp only [List.length_append, List.length_replicate, List.length_cons] at hlength
    omega
  · intro h
    rw [h, List.append_assoc]
    rfl

theorem head?_pathOf_ne (source : Text) : (pathOf source).head? ≠ some '/' := head?_dropLeading_ne _

/-- A fragment without query suffix has none without its leading slashes. -/
theorem splitSuffix_pathOf (h : (splitSuffix fragment).2 = []) :
    splitSuffix (pathOf fragment) = (pathOf fragment, []) := by
  have hnone : ∀ t : Text, (splitSuffix t).2 = [] → (splitSuffix (Text.dropLeading '/' t)).2 = [] := by
    intro t ht
    induction t with
    | nil => rfl
    | cons c t ih =>
      by_cases hc : c = '/'
      · rw [hc, ← List.nil_append ('/' :: t), splitSuffix_slash] at ht
        rw [hc, Text.dropLeading, List.dropWhile_cons_of_pos (by rfl)]
        exact ih ht
      · rwa [dropLeading_of_head_ne (by simpa using hc)]
  have hpath : (splitSuffix (pathOf fragment)).2 = [] := by
    rw [pathOf, splitSuffix_of_nil h]
    exact hnone fragment h
  exact Prod.ext (splitSuffix_of_nil hpath) hpath

/-- Joining adds the path of a fragment after a seam, and the query names of the fragment. -/
theorem splitSuffix_extend (hp : p.path ≠ []) (hfragment : pathOf fragment ≠ []) :
    splitSuffix (p.extend fragment) = (seam p.path (pathOf fragment), (splitSuffix fragment).2) := by
  have hextend : p.extend fragment = p.path ++ '/' :: pathOf fragment ++ writeSuffix (splitSuffix fragment).2 := by
    rw [pathOf] at hfragment
    simp only [extend, List.isEmpty_iff, hp, hfragment, if_false, pathOf]
  rw [hextend, seam_eq]
  by_cases hnames : (splitSuffix fragment).2 = []
  · rw [hnames, writeSuffix, if_pos (by rfl), List.append_nil, splitSuffix_slash, splitSuffix_pathOf hnames]
  · exact splitSuffix_written _ hnames (isName_of_splitSuffix fragment)

theorem head?_seam_ne {above added : Text} (habove : above ≠ []) (hhead : above.head? ≠ some '/') :
    (seam above added).head? ≠ some '/' := by
  obtain ⟨c, above, rfl⟩ := List.exists_cons_of_ne_nil habove
  rw [seam_eq]
  exact hhead

/-- The pattern that is made of a joined one has the seam in its path. -/
theorem path_of_ofText_extend (hp : p.path ≠ []) (hhead : p.path.head? ≠ some '/') (hfragment : pathOf fragment ≠ [])
    (h : (ofText delimiter (p.extend fragment)).outcome = .ok q) : q.path = seam p.path (pathOf fragment) := by
  rw [(assign_eq_ok (ofText_eq_ok h)).2.1, splitSuffix_extend hp hfragment]
  exact dropLeading_of_head_ne (head?_seam_ne hp hhead)

end RoutePattern

open RoutePattern

theorem Branch.path_of_child {id : Nat} {parent r : Route} {segment : Text} {spec : RouteSpec}
    (h : (child id parent segment spec).outcome = .ok r) (hpath : parent.pattern.path ≠ [])
    (hhead : parent.pattern.path.head? ≠ some '/') (hspec : pathOf spec.pattern ≠ []) :
    r.pattern.path = seam parent.pattern.path (pathOf spec.pattern) := by
  obtain ⟨pattern, hpattern, hr⟩ := Traced.bind_outcome_eq_ok.mp h
  rw [Traced.outcome_pure, Except.ok.injEq] at hr
  rw [← hr]
  exact path_of_ofText_extend hpath hhead hspec hpattern

/-- Joining the path of any route of a tree with a fragment keeps the slashes at the end of the path: with the one that
is added they are between the two, whatever the fragment starts with. The two are joined by a single slash if the path
ends with none, and only then. A route that is added below this one by the fragment has the joined path. -/
theorem path_of_joined {delimiter : Text} {t : Tree} (ht : Lives delimiter t) {parent : Route}
    (hparent : parent ∈ t.root.routes) (hpath : parent.pattern.path ≠ []) {fragment : Text}
    (hfragment : pathOf fragment ≠ []) :
    splitSuffix (parent.pattern.extend fragment) =
        (seam parent.pattern.path (pathOf fragment), (splitSuffix fragment).2) ∧
      Text.dropTrailing '/' parent.pattern.path ≠ [] ∧
      (Text.dropTrailing '/' parent.pattern.path).getLast? ≠ some '/' ∧ (pathOf fragment).head? ≠ some '/' ∧
      (seam parent.pattern.path (pathOf fragment) =
          Text.dropTrailing '/' parent.pattern.path ++ '/' :: pathOf fragment ↔
        parent.pattern.path.getLast? ≠ some '/') ∧
      ∀ spec r u, spec.pattern = fragment → t.Adds spec parent r u →
        r.pattern.path = seam parent.pattern.path (pathOf fragment) := by
  obtain ⟨-, sources, hreached⟩ := reached_of_lives ht parent hparent
  have hhead := hreached.head_ne_slash
  refine ⟨splitSuffix_extend hpath hfragment, fun hnil => ?_, getLast?_dropTrailing_ne _, head?_pathOf_ne _,
    seam_eq_single_iff, ?_⟩
  · -- a path of slashes alone would start with one
    obtain ⟨c, path, hcons⟩ := List.exists_cons_of_ne_nil hpath
    have hslash : c = '/' := by simpa using List.rdropWhile_eq_nil_iff.mp hnil c (hcons ▸ List.mem_cons_self)
    exact hhead (by rw [hcons, hslash]; rfl)
  · rintro spec r u rfl hadds
    obtain ⟨segment, hmade⟩ := hadds.gains.made
    exact Branch.path_of_child hmade hpath hhead hfragment

/-- With `x//` above and `//{i:\d}?{q}` added there are three slashes between the two. -/
theorem slashes_above_are_kept :
    ∃ t parent r u, Lives ['/'] t ∧ parent ∈ t.root.routes ∧ parent.pattern.path = "x//".toList ∧
      t.Adds { pattern := "//\x7bi:\\d\x7d?\x7bq\x7d".toList } parent r u ∧
      splitSuffix (parent.pattern.extend "//\x7bi:\\d\x7d?\x7bq\x7d".toList) =
        ("x///\x7bi:\\d\x7d".toList, [['q']]) ∧
      r.pattern.path = "x///\x7bi:\\d\x7d".toList := by
  have hrun : (Tree.create ['/']).Gives fun t =>
      (t.add (.dotted "a".toList) { pattern := "x//".toList }).Gives fun t =>
      (t.add (.dotted "a.b".toList) { pattern := "//\x7bi:\\d\x7d?\x7bq\x7d".toList }).Gives fun u =>
      u.root.edges.all (fun e => e.2.id != t.next || e.1.pattern.path == "x//".toList) = true := by
    cbv
  have hfragment : pathOf "//\x7bi:\\d\x7d?\x7bq\x7d".toList = "\x7bi:\\d\x7d".toList := by cbv
  have hsuffix : (splitSuffix "//\x7bi:\\d\x7d?\x7bq\x7d".toList).2 = [['q']] := by cbv
  have hseam : seam "x//".toList "\x7bi:\\d\x7d".toList = "x///\x7bi:\\d\x7d".toList := by cbv
  obtain ⟨t₀, hcreate, hrun⟩ := Traced.exists_of_gives hrun
  obtain ⟨t, ha, hrun⟩ := Traced.exists_of_gives hrun
  obtain ⟨u, hb, hedges⟩ := Traced.exists_of_gives hrun
  have hlives : Lives ['/'] t := .add (.create hcreate) ha
  obtain ⟨parent, r, hadds⟩ := Tree.exists_adds_of_add hb
  have hpath : parent.pattern.path = "x//".toList := by
    obtain ⟨segment, hmade⟩ := hadds.gains.made
    have hedge := List.all_eq_true.mp hedges _ hadds.gains.edge
    simpa [Branch.id_of_child hmade] using hedge
  have hadded : pathOf "//\x7bi:\\d\x7d?\x7bq\x7d".toList ≠ [] := by rw [hfragment]; decide
  obtain ⟨hjoined, -, -, -, -, hchild⟩ :=
    path_of_joined hlives hadds.gains.parent_mem (by rw [hpath]; decide) hadded
  rw [hpath, hfragment, hseam, hsuffix] at hjoined
  have hmade := hchild _ r u rfl hadds
  rw [hpath, hfragment, hseam] at hmade
  exact ⟨t, parent, r, u, hlives, hadds.gains.parent_mem, hpath, hadds, hjoined, hmade⟩

/-- With `post/` above and `{id}` added there are two slashes between the two. -/
theorem slash_above_is_doubled :
    ∃ t parent, Lives ['/'] t ∧ parent ∈ t.root.routes ∧ parent.pattern.path = "post/".toList ∧
      (splitSuffix (parent.pattern.extend "\x7bid\x7d".toList)).1 = "post//\x7bid\x7d".toList ∧
      (splitSuffix (parent.pattern.extend "\x7bid\x7d".toList)).1 ≠
        Text.dropTrailing '/' parent.pattern.path ++ '/' :: pathOf "\x7bid\x7d".toList := by
  have hrun : (Tree.create ['/']).Gives fun t =>
      (t.add (.dotted "a".toList) { pattern := "post/".toList }).Gives fun t =>
      t.root.routes.any (fun r => r.pattern.path == "post/".toList) = true := by
    cbv
  obtain ⟨t₀, hcreate, hrun⟩ := Traced.exists_of_gives hrun
  obtain ⟨t, ha, hany⟩ := Traced.exists_of_gives hrun
  obtain ⟨parent, hparent, hpath⟩ := List.any_eq_true.mp hany
  replace hpath : parent.pattern.path = "post/".toList := by simpa using hpath
  have hfragment : pathOf "\x7bid\x7d".toList = "\x7bid\x7d".toList := by cbv
  have hjoined := congrArg Prod.fst
    (splitSuffix_extend (by rw [hpath]; decide : parent.pattern.path ≠ []) (by rw [hfragment]; decide))
  dsimp only at hjoined
  refine ⟨t, parent, .add (.create hcreate) ha, hparent, hpath, ?_, ?_⟩
  · rw [hjoined, seam_eq, hpath, hfragment]
    rfl
  · rw [hjoined, Ne, seam_eq_single_iff, hpath]
    decide

/-! ### Trees without doubled slashes -/

/-- Whether a path has no two slashes in a row and none at its end. It has no query suffix, which would be cut off when
nothing but query names is added. -/
structure IsSeamless (path : Text) : Prop where
  suffix : (splitSuffix path).2 = []
  last : path.getLast? ≠ some '/'
  single : path.IsChain fun c d => c = '/' → d ≠ '/'

/-- The seam of paths without two slashes in a row has none. -/
theorem IsSeamless.seam {above added : Text} (habove : IsSeamless above) (hadded : IsSeamless added)
    (hne : added ≠ []) (hhead : added.head? ≠ some '/') : IsSeamless (seam above added) := by
  obtain ⟨c, added, rfl⟩ := List.exists_cons_of_ne_nil hne
  rw [seam_eq]
  refine ⟨by rw [splitSuffix_slash]; exact hadded.suffix, ?_, ?_⟩
  · have hlast := hadded.last
    rwa [← List.getLast?_cons_cons (a := '/'), ← List.getLast?_append_cons above] at hlast
  · refine List.isChain_append.mpr ⟨habove.single, ?_, ?_⟩
    · exact List.isChain_cons_cons.mpr ⟨fun _ hc => hhead (congrArg some hc), hadded.single⟩
    · rintro d hd c - rfl
      exact absurd hd habove.last

/-- Below the empty path there is no seam. -/
theorem path_of_ofText_extend_of_nil {p q : RoutePattern} {delimiter fragment : Text} (hp : p.path = [])
    (hfragment : (splitSuffix (pathOf fragment)).2 = [])
    (h : (ofText delimiter (p.extend fragment)).outcome = .ok q) : q.path = pathOf fragment := by
  have hextend : p.extend fragment = pathOf fragment ++ writeSuffix (splitSuffix fragment).2 := by
    simp [extend, hp, pathOf]
  have hsplit : (splitSuffix (p.extend fragment)).1 = pathOf fragment := by
    rw [hextend]
    by_cases hnames : (splitSuffix fragment).2 = []
    · rw [hnames, writeSuffix, if_pos (by rfl), List.append_nil, splitSuffix_of_nil hfragment]
    · rw [splitSuffix_written _ hnames (isName_of_splitSuffix fragment)]
  rw [(assign_eq_ok (ofText_eq_ok h)).2.1, hsplit]
  exact dropLeading_of_head_ne (head?_pathOf_ne fragment)

theorem IsSeamless.child {id : Nat} {parent r : Route} {segment : Text} {spec : RouteSpec}
    (h : (Branch.child id parent segment spec).outcome = .ok r) (hhead : parent.pattern.path.head? ≠ some '/')
    (hparent : IsSeamless parent.pattern.path) (hspec : IsSeamless (pathOf spec.pattern)) :
    IsSeamless r.pattern.path := by
  have hmade := h
  obtain ⟨pattern, hpattern, hr⟩ := Traced.bind_outcome_eq_ok.mp h
  rw [Traced.outcome_pure, Except.ok.injEq] at hr
  by_cases hadded : pathOf spec.pattern = []
  · rw [← hr]
    exact path_of_extend_nil hhead hparent.suffix hadded hpattern ▸ hparent
  by_cases habove : parent.pattern.path = []
  · rw [← hr]
    exact path_of_ofText_extend_of_nil habove hspec.suffix hpattern ▸ hspec
  · rw [Branch.path_of_child hmade habove hhead hadded]
    exact hparent.seam hspec hadded (head?_pathOf_ne _)

/-- A route that is added by a fragment without two slashes in a row has a path without them, if the others have. -/
theorem Tree.Adds.isSeamless {delimiter : Text} {t u : Tree} {spec : RouteSpec} {parent r : Route}
    (h : t.Adds spec parent r u) (ht : Lives delimiter t) (hroutes : ∀ s ∈ t.root.routes, IsSeamless s.pattern.path)
    (hspec : IsSeamless (pathOf spec.pattern)) : ∀ s ∈ u.root.routes, IsSeamless s.pattern.path := by
  intro s hs
  rcases h.gains.routes s hs with rfl | hs
  · obtain ⟨-, sources, hreached⟩ := reached_of_lives ht parent h.gains.parent_mem
    obtain ⟨segment, hmade⟩ := h.gains.made
    exact .child hmade hreached.head_ne_slash (hroutes parent h.gains.parent_mem) hspec
  · exact hroutes s hs

/-- No path of a tree has two slashes in a row if none of the fragments has that its routes were added by. -/
theorem isSeamless_ofRoutes {delimiter : Text} {routes : List (RouteName × RouteSpec)} {t : Tree}
    (hroutes : ∀ added ∈ routes, IsSeamless (pathOf added.2.pattern))
    (h : (Tree.ofRoutes delimiter routes).outcome = .ok t) : ∀ r ∈ t.root.routes, IsSeamless r.pattern.path := by
  replace h := Traced.bind_outcome_eq_ok.mp h
  obtain ⟨root, hroot, h⟩ := h
  have hlives : Lives delimiter root := .create hroot
  have hgood : ∀ r ∈ root.root.routes, IsSeamless r.pattern.path := by
    have hempty := (linked_of_grown (.create hroot)).2.1
    obtain ⟨pattern, hpattern, hroot⟩ := Traced.bind_outcome_eq_ok.mp hroot
    rw [Traced.outcome_pure, Except.ok.injEq] at hroot
    subst hroot
    refine Branch.forall_routes.mpr ⟨?_, by simp [Branch.children, Branch.routesOf]⟩
    rw [hempty]
    exact ⟨rfl, by simp, List.IsChain.nil⟩
  clear hroot
  -- each route is added to a tree that has the property
  induction routes generalizing root with
  | nil =>
    rw [List.foldlM_nil, Traced.outcome_pure, Except.ok.injEq] at h
    exact h ▸ hgood
  | cons added routes ih =>
    obtain ⟨hadded, hroutes⟩ := List.forall_mem_cons.mp hroutes
    rw [List.foldlM_cons] at h
    obtain ⟨grown, hadd, h⟩ := Traced.bind_outcome_eq_ok.mp h
    obtain ⟨parent, r, hadds⟩ := Tree.exists_adds_of_add hadd
    exact ih hroutes grown h (.add hlives hadd) (hadds.isSeamless hlives hgood hadded)

end Routing
