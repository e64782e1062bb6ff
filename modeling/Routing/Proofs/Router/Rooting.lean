import Routing.Proofs.Router.Location

/-!
# Links are rooted

A link that is not absolute is a row of stretches before its query: the base path in normal form, the scope and the
path of the route. A stretch is nothing, or one slash with something else behind it, so a row of stretches starts with
one slash (`IsStretch.append`). A scope of slashes alone is no stretch, as it leaves its slash behind with nothing after
it. Between no base path and a path it makes the link start with two slashes, and a link of that kind is read as a URL
with a host (`link_rooted`).
-/

namespace Routing

/-! ### Stretches -/

/-- Whether a text starts with exactly one slash. -/
def IsRooted (t : Text) : Prop := ∃ rest, t = '/' :: rest ∧ rest.head? ≠ some '/'

/-- Whether a text is nothing, or one slash with something else behind it. -/
def IsStretch (t : Text) : Prop := t = [] ∨ ∃ c rest, t = '/' :: c :: rest ∧ c ≠ '/'

section Stretches

variable {s t : Text}

theorem isStretch_cons {core : Text} (hne : core ≠ []) (hhead : core.head? ≠ some '/') : IsStretch ('/' :: core) := by
  obtain ⟨c, rest, rfl⟩ := List.exists_cons_of_ne_nil hne
  exact Or.inr ⟨c, rest, rfl, fun hc => hhead (congrArg some hc)⟩

/-- What follows a stretch that is not empty does not change its start. -/
theorem IsStretch.isRooted_append (h : IsStretch t) (hne : t ≠ []) (more : Text) : IsRooted (t ++ more) := by
  rcases h with rfl | ⟨c, rest, rfl, hc⟩
  · exact absurd rfl hne
  · exact ⟨c :: rest ++ more, rfl, by simpa using hc⟩

/-- A row of stretches is a stretch. -/
theorem IsStretch.append (hs : IsStretch s) (ht : IsStretch t) : IsStretch (s ++ t) := by
  rcases hs with rfl | ⟨c, rest, rfl, hc⟩
  · exact ht
  · exact Or.inr ⟨c, rest ++ t, rfl, hc⟩

theorem IsRooted.withQuery (h : IsRooted t) (search : Text) : IsRooted (withQuery t search) := by
  obtain ⟨rest, rfl, hrest⟩ := h
  rw [Routing.withQuery]
  split
  · exact ⟨rest, rfl, hrest⟩
  · refine ⟨rest ++ '?' :: search, rfl, ?_⟩
    cases rest with
    | nil => simp
    | cons c rest => exact hrest

/-- A text with one slash at its start is no URL: it has neither a scheme nor a host. -/
theorem IsRooted.isAbsolute_eq_false (h : IsRooted t) : Router.isAbsolute t = false := by
  obtain ⟨rest, rfl, hrest⟩ := h
  have hscheme : Router.schemeStart.holds '/' = false := by cbv
  unfold Router.isAbsolute
  split
  · next heq => simp_all
  · next heq =>
    obtain ⟨rfl, -⟩ := List.cons.inj heq
    rw [hscheme, Bool.false_and]
  · rfl

/-- A text with two slashes at its start is a URL, with what follows as its host. -/
theorem isAbsolute_slashes (t : Text) : Router.isAbsolute ('/' :: '/' :: t) = true := rfl

end Stretches

/-! ### Parts of a link -/

theorem IsBase.isStretch {base : Text} (h : IsBase base) : IsStretch base := by
  rcases h with rfl | ⟨core, rfl, hne, hhead, -⟩
  · exact Or.inl rfl
  · exact isStretch_cons hne hhead

namespace LinkOptions

variable {o : LinkOptions} {settings : Settings}

/-- The base path of a link, in normal form. -/
def basePath (o : LinkOptions) (settings : Settings) : Text :=
  settings.base (match o.base with | .path t => some t | _ => none)

/-- Whether a scope is given that consists of slashes only. -/
def HasBareScope (o : LinkOptions) : Prop := ∃ scope, o.scope = some scope ∧ scope ≠ [] ∧ ∀ c ∈ scope, c = '/'

/-- A scope of slashes leaves one of them behind the base path. -/
theorem start_of_hasBareScope (h : o.HasBareScope) : o.start settings = o.basePath settings ++ ['/'] := by
  obtain ⟨scope, hscope, hne, hall⟩ := h
  obtain ⟨c, rest, rfl⟩ := List.exists_cons_of_ne_nil hne
  simp only [start, hscope, Text.strip_eq_nil_iff.mpr hall]
  rfl

/-- Without such a scope a stretch stands before the path. -/
theorem isStretch_start (h : ¬ o.HasBareScope) : IsStretch (o.start settings) := by
  have hbase : IsStretch (o.basePath settings) := (isBase_normalizeBase _).isStretch
  rw [start]
  split
  · next c rest hscope =>
    have hstrip : Text.strip '/' (c :: rest) ≠ [] := fun hnil =>
      h ⟨_, hscope, List.cons_ne_nil _ _, Text.strip_eq_nil_iff.mp hnil⟩
    exact hbase.append (isStretch_cons hstrip (Text.head?_strip_ne _))
  · exact hbase

/-- Whether the slash that is left of a scope meets the one of a path, with no base path before them. -/
def Doubles (o : LinkOptions) (settings : Settings) (path : Text) : Prop :=
  o.HasBareScope ∧ o.basePath settings = [] ∧ path ≠ []

end LinkOptions

/-! ### Links -/

namespace Route

variable {r : Route} {settings : Settings} {params : Mapping Value} {o : LinkOptions} {query : Option LinkQuery}
  {path l : Text}

/-- A path is a stretch. -/
theorem isStretch_of_path (h : r.path params = .ok path) : IsStretch path := by
  obtain ⟨t, -, rfl⟩ := Pattern.map_eq_ok.mp h
  dsimp only
  split
  · exact Or.inl rfl
  · next hne => exact isStretch_cons (by simpa using hne) (head?_dropLeading_ne t)

/-- A link that is not absolute is the place that it leads to, and a query. -/
theorem exists_withQuery_of_link (habsolute : o.absolute = false) (hpath : r.path params = .ok path)
    (h : r.link settings params o query = .ok l) : ∃ search, l =
      withQuery (if (o.start settings ++ path).isEmpty then ['/'] else o.start settings ++ path) search := by
  rw [link, hpath] at h
  refine ⟨Query.serialize ((query.map LinkQuery.params).getD .empty), (Except.ok.inj h).symm.trans ?_⟩
  simp only [LinkOptions.link, habsolute, withQuery, Bool.false_eq_true, if_false]

/-- The place starts with one slash, unless that of a scope meets that of the path. -/
theorem isRooted_place (hpath : IsStretch path) (h : ¬ o.Doubles settings path) :
    IsRooted (if (o.start settings ++ path).isEmpty then ['/'] else o.start settings ++ path) := by
  have hslash : IsRooted ['/'] := ⟨[], rfl, nofun⟩
  by_cases hbare : o.HasBareScope
  · have hbase : IsStretch (o.basePath settings) := (isBase_normalizeBase _).isStretch
    rw [LinkOptions.start_of_hasBareScope hbare, List.append_assoc]
    by_cases hnone : o.basePath settings = []
    · obtain rfl : path = [] := by_contra fun hne => h ⟨hbare, hnone, hne⟩
      rw [hnone]
      exact hslash
    · rw [if_neg (by simp)]
      exact hbase.isRooted_append hnone _
  · have hplace : IsStretch (o.start settings ++ path) := (LinkOptions.isStretch_start hbare).append hpath
    split
    · exact hslash
    · next hne => simpa using hplace.isRooted_append (by simpa using hne) []

theorem isRooted_link (habsolute : o.absolute = false) (hpath : r.path params = .ok path)
    (h : r.link settings params o query = .ok l) (hsingle : ¬ o.Doubles settings path) : IsRooted l := by
  obtain ⟨search, rfl⟩ := exists_withQuery_of_link habsolute hpath h
  exact (isRooted_place (isStretch_of_path hpath) hsingle).withQuery search

/-- A link that is not absolute starts with one slash, and then it is not read as a URL. Only where the slash that is
left of a scope meets that of the path, with no base path before them, it starts with these two, and is read as one. -/
theorem link_rooted (habsolute : o.absolute = false) (h : r.link settings params o query = .ok l) :
    ∃ path, r.path params = .ok path ∧
      (¬ o.Doubles settings path → IsRooted l ∧ Router.isAbsolute l = false) ∧
      (o.Doubles settings path → Router.isAbsolute l = true ∧ ∃ rest, l = '/' :: path ++ rest ∧ IsRooted path) := by
  obtain ⟨path, hpath, -⟩ := Pattern.map_eq_ok.mp h
  refine ⟨path, hpath, fun hsingle => ?_, fun hdouble => ?_⟩
  · have hrooted := isRooted_link habsolute hpath h hsingle
    exact ⟨hrooted, hrooted.isAbsolute_eq_false⟩
  · obtain ⟨hbare, hnone, hne⟩ := hdouble
    have hrooted := (isStretch_of_path hpath).isRooted_append hne []
    rw [List.append_nil] at hrooted
    obtain ⟨search, rfl⟩ := exists_withQuery_of_link habsolute hpath h
    rw [LinkOptions.start_of_hasBareScope hbare, hnone, List.nil_append, List.singleton_append, if_neg (by simp)]
    obtain ⟨rest, rfl, hrest⟩ := hrooted
    rw [withQuery]
    split
    · exact ⟨isAbsolute_slashes _, [], by simp, rest, rfl, hrest⟩
    · exact ⟨isAbsolute_slashes _, '?' :: search, rfl, rest, rfl, hrest⟩

/-- A scope of slashes behind a base path leaves a slash inside of the link. -/
theorem slashes_inside_are_kept :
    ∃ (r : Route) (o : LinkOptions) (l : Text), r.IsMade ∧ o.base = .path "app".toList ∧ o.scope = some "//".toList ∧
      o.absolute = false ∧ r.link {} ⟨[(['v'], .str "12".toList)]⟩ o none = .ok l ∧ l = "/app//n/12".toList ∧
      IsRooted l ∧ Router.isAbsolute l = false := by
  have hrun : (RoutePattern.ofText ['/'] "n/\x7bv:\\d+\x7d".toList).Gives fun p =>
      Route.link { id := 0, delimiter := ['/'], pattern := p } {} ⟨[(['v'], .str "12".toList)]⟩
        { base := .path "app".toList, scope := some "//".toList } none = .ok "/app//n/12".toList := by
    cbv
  obtain ⟨p, hp, hlink⟩ := Traced.exists_of_gives hrun
  have hbase : LinkOptions.basePath { base := .path "app".toList, scope := some "//".toList } {} = "/app".toList := by
    cbv
  obtain ⟨path, -, hsingle, -⟩ := link_rooted (by rfl) hlink
  refine ⟨{ id := 0, delimiter := ['/'], pattern := p }, { base := .path "app".toList, scope := some "//".toList },
    "/app//n/12".toList, ⟨_, hp⟩, rfl, rfl, rfl, hlink, rfl, hsingle fun hdouble => ?_⟩
  exact absurd (hbase.symm.trans hdouble.2.1) (by simp)

/-- A scope of one slash and no base path: the link to the route `foo` is read as a URL of a host called so. -/
theorem slash_as_scope_names_host :
    ∃ (r : Route) (o : LinkOptions) (l : Text), r.IsMade ∧ r.pattern.path = "foo".toList ∧ o.scope = some ['/'] ∧
      o.absolute = false ∧ r.link {} .empty o none = .ok l ∧ l = "//foo".toList ∧ ¬ IsRooted l ∧
      Router.isAbsolute l = true := by
  have hrun : (RoutePattern.ofText ['/'] "foo".toList).Gives fun p => p.path = "foo".toList ∧
      Route.link { id := 0, delimiter := ['/'], pattern := p } {} .empty { scope := some ['/'] } none =
        .ok "//foo".toList := by
    cbv
  obtain ⟨p, hp, hpath, hlink⟩ := Traced.exists_of_gives hrun
  have habsolute : Router.isAbsolute "//foo".toList = true := isAbsolute_slashes ['f', 'o', 'o']
  refine ⟨{ id := 0, delimiter := ['/'], pattern := p }, { scope := some ['/'] }, "//foo".toList, ⟨_, hp⟩, hpath, rfl,
    rfl, hlink, rfl, fun hrooted => ?_, habsolute⟩
  exact Bool.false_ne_true (hrooted.isAbsolute_eq_false.symm.trans habsolute)

end Route

/-- The links of a router are rooted: with a scope that is more than slashes, and without one, no link to a name is read
as a URL when it is asked for as a name itself. -/
theorem Router.isRooted_linkTo {router : Router} {name : RouteName} {params : Mapping Value} {query : Option LinkQuery}
    {o : LinkOptions} {l : Text} (habsolute : o.absolute = false) (hscope : ¬ o.HasBareScope)
    (h : router.linkTo name params query o = .ok l) : IsRooted l := by
  -- the router adds its base path, and no scope
  have hoptions : (router.linkOptions o).absolute = o.absolute ∧ (router.linkOptions o).scope = o.scope := by
    rw [linkOptions]
    split <;> exact ⟨rfl, rfl⟩
  have hroute : ∀ (route : Route) (query : Option LinkQuery),
      route.link router.settings params (router.linkOptions o) query = .ok l → IsRooted l := by
    intro route query hlink
    obtain ⟨path, hpath, -⟩ := Pattern.map_eq_ok.mp hlink
    refine Route.isRooted_link (hoptions.1.trans habsolute) hpath hlink ?_
    rintro ⟨⟨scope, hsome, hslashes⟩, -⟩
    exact hscope ⟨scope, hoptions.2 ▸ hsome, hslashes⟩
  obtain ⟨name', -, h⟩ := Pattern.bind_eq_ok.mp h
  obtain ⟨place, -, h⟩ := Pattern.bind_eq_ok.mp h
  obtain ⟨target, -, h⟩ := Pattern.bind_eq_ok.mp h
  cases query with
  | some q => exact hroute _ _ h
  | none =>
    obtain ⟨picked, -, h⟩ := Pattern.bind_eq_ok.mp h
    exact hroute _ _ h

end Routing
