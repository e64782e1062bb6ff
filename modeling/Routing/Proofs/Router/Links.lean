import Routing.Proofs.Query
import Routing.Proofs.Router.Single

/-!
# Links are matched

A router with one route finds that route and its parameters again from a link to it (`matchLocation_link`). A link to
a route without groups has the base path, a path that fits the pattern of the route, and the query variables; all of
them are taken apart again in the same way. The path that ends in an index file is the exception, since the file is cut
off before the search: such a link never leads back to the route.
-/

namespace Routing

open Pattern

/-! ### Parameters of links -/

/-- Whether some parameters are those of a route and no others: a text for each variable of the path, and a text or a
list of texts for each query variable, where no text for the path and no list is empty. -/
structure Route.IsGiven (r : Route) (steps : List Step) (params : Mapping Value) : Prop
    extends r.TakesTexts params (variablesOf steps) where
  query : ∀ name ∈ r.pattern.queryNames, (∃ t, params.get? name = some (.str t)) ∨
    ∃ items : List Text, items ≠ [] ∧ params.get? name = some (.list (items.map .str))
  others : ∀ name, name ∉ variablesOf steps → name ∉ r.pattern.queryNames → params.get? name = none

/-- The values of the path and the query of a link are the parameters that it was asked for, over the defaults. -/
theorem Route.IsGiven.get?_mergeParams {root r : Route} (hroot : root.IsRoot) {steps : List Step}
    {params : Mapping Value} (h : r.IsGiven steps params) (hnodup : (variablesOf steps).Nodup) (found : Regex.Cursor)
    (name : Text) :
    (r.mergeParams ⟨(variablesOf steps).map fun name => (name, paramValue params name)⟩
      (Branch.Selection.queryParams ⟨[root], r, found⟩ (r.pickQuery params) .empty)).get? name =
      (params.get? name).or (r.defaults.get? name) := by
  have hkeys : (Mapping.mk ((variablesOf steps).map fun name => (name, paramValue params name))).keys.Nodup := by
    rw [Mapping.keys, List.map_map]
    exact (List.map_id' _).symm ▸ hnodup
  have hquery : (Branch.Selection.queryParams ⟨[root], r, found⟩ (r.pickQuery params) .empty).get? name =
      if name ∈ r.pattern.queryNames then params.get? name else none := by
    rw [Branch.get?_queryParams, Branch.queried, Route.get?_pickQuery]
    by_cases hname : name ∈ r.pattern.queryNames
    · rcases h.query name hname with ⟨t, ht⟩ | ⟨items, -, hlist⟩
      · simp [hname, ht, Value.isNull]
      · simp [hname, hlist, Value.isNull]
    · simp [hname, hroot.query]
  have hempty : (Mapping.empty : Mapping Value).keys.Nodup := List.nodup_nil
  rw [Route.get?_mergeParams r hkeys (Branch.nodup_keys_queryParams _ _ hempty), hquery, Mapping.get?_map]
  -- variables of the path are read from the path, and all the others from the query
  by_cases hpath : name ∈ variablesOf steps
  · obtain ⟨t, -, ht⟩ := h.texts name hpath
    have hpresent : (some (Value.str t)).filter (!isAbsent ·) = some (.str t) := rfl
    simp [hpath, paramValue, ht, hpresent]
  · by_cases hname : name ∈ r.pattern.queryNames
    · simp [hpath, hname]
    · simp [hpath, hname, h.others name hpath hname]

/-- Query variables with texts and lists of texts are read back from the query of a link. -/
theorem Route.parse_pickQuery {r : Route} {params : Mapping Value} (hr : r.IsMade)
    (h : ∀ name ∈ r.pattern.queryNames, (∃ t, params.get? name = some (.str t)) ∨
      ∃ items : List Text, items ≠ [] ∧ params.get? name = some (.list (items.map .str))) :
    Query.parse (Query.serialize (r.pickQuery params)) = r.pickQuery params := by
  have hnodup : (r.pickQuery params).keys.Nodup := Mapping.nodup_keys_ofList _
  obtain ⟨source, hsource⟩ := hr
  have hquery := (RoutePattern.assign_eq_ok (RoutePattern.ofText_eq_ok hsource)).2.2
  rw [Query.parse, Query.pairs_serialize]
  refine @Query.foldl_toPairs [] _ hnodup fun e he => ?_
  obtain ⟨name, value⟩ := e
  have hget := Mapping.get?_of_mem hnodup he
  rw [Route.get?_pickQuery] at hget
  split at hget
  · next hname =>
    obtain ⟨hne, hword⟩ := isName_of_splitSuffix source name (hquery ▸ hname)
    have hmarks : '\n' ∉ name ∧ ']' ∉ name :=
      ⟨fun hmem => absurd (hword _ hmem) (by decide), fun hmem => absurd (hword _ hmem) (by decide)⟩
    -- a word has no bracket, so its key is not taken for an item of a list
    have hplain : ¬ Query.IsBracketed name := by
      rintro ⟨base, digits, -, -, rfl⟩
      exact hmarks.2 (by simp)
    rcases h name hname with ⟨t, ht⟩ | ⟨items, hitems, hlist⟩
    · rw [ht] at hget
      obtain rfl : Value.str t = value := Option.some.inj hget
      exact .text hne hmarks.1 hplain
    · rw [hlist] at hget
      obtain rfl : Value.list (items.map .str) = value := Option.some.inj hget
      exact .list hne hmarks.1 hitems
  · cases hget

/-! ### Links and what is searched for them -/

namespace Router

theorem start_linkOptions {router : Router} (h : IsBase router.basePath) :
    (router.linkOptions {}).start router.settings = router.basePath :=
  normalizeBase_of_isBase h

/-- What a search for a link finds: a match of its path, without the index file, with its query. -/
theorem matchLocation_withQuery {router : Router} (hbase : IsBase router.basePath) (hmark : '?' ∉ router.basePath)
    {core : Text} (hhead : core.head? ≠ some '/') (hcore : '?' ∉ core) (search : Text) {t : Transition} :
    (router.matchLocation (withQuery (placeOf router.basePath core) search)).outcome = .ok (some t) ↔ ∃ m,
      (router.tree.root.matchPath (Text.dropLeading '/' (rooted (dropIndex router.settings.indexFile ('/' :: core))))
        (Query.parse search) .empty).outcome = .ok (some m) ∧
      follow router.tree m.route (m.above ++ [m.route]) = .ok t.target ∧
      t = { source := router.current, target := t.target, params := m.params } := by
  have hpath : '?' ∉ rooted (dropIndex router.settings.indexFile ('/' :: core)) := by
    apply not_mem_rooted (by decide) (not_mem_dropIndex _)
    simpa using hcore
  have hsearch : (if search.isEmpty then none else some search).getD [] = search := by cases search <;> rfl
  rw [matchLocation_eq_ok, normalize_withQuery hbase hmark hhead hcore, cut_withQuery hpath, hsearch]

/-- What the link to the only route of a router is, and what is searched for it. The path of the link is `core` after a
slash. -/
structure IsLink (router : Router) (r : Route) (steps : List Step) (params : Mapping Value) (core link : Text) :
    Prop where
  fits : Fits steps ((variablesOf steps).map (codedParam params)) core
  head : core.head? ≠ some '/'
  path : r.path params = .ok (if core.isEmpty then [] else '/' :: core)
  written : router.link (.dotted r.name) params none {} = .ok link
  search : ∀ t, (router.matchLocation link).outcome = .ok (some t) ↔ ∃ m,
    (router.tree.root.matchPath (Text.dropLeading '/' (rooted (dropIndex router.settings.indexFile ('/' :: core))))
      (r.pickQuery params) .empty).outcome = .ok (some m) ∧
    follow router.tree m.route (m.above ++ [m.route]) = .ok t.target ∧
    t = { source := router.current, target := t.target, params := m.params }

section Link

variable {router : Router} {r : Route} {steps : List Step} {params : Mapping Value}

theorem exists_isLink (hrouter : router.Holds r) (htarget : IsTarget r) (hsteps : r.HasSteps steps)
    (hmarks : ∀ text, .literal text ∈ steps → '?' ∉ text) (hparams : r.IsGiven steps params) :
    ∃ core link, router.IsLink r steps params core link := by
  obtain ⟨root, htree, hroot, id, spec, hchild⟩ := hrouter.exists_root
  obtain ⟨core, hfits, hhead, hpath⟩ := Route.path_of_steps hrouter.isMade hsteps hparams.toTakesTexts
  have hcoded : ∀ v ∈ (variablesOf steps).map (codedParam params), '?' ∉ v := by
    rw [List.forall_mem_map]
    intro name hname
    obtain ⟨t, -, ht⟩ := hparams.texts name hname
    rw [codedParam_str ht]
    exact not_mem_coded (by decide) (by decide) (by decide) t
  have hcore : '?' ∉ core := hfits.not_mem hmarks hcoded
  refine ⟨core, withQuery (placeOf router.basePath core) (Query.serialize (r.pickQuery params)), hfits, hhead, hpath,
    ?_, fun t => ?_⟩
  · rw [link_eq htree (Branch.name_of_child hchild hroot.name) htarget, Route.link, hpath, Except.map,
      LinkOptions.link_eq (start_linkOptions hrouter.isBase) rfl]
    rfl
  · rw [matchLocation_withQuery hrouter.isBase hrouter.mark hhead hcore,
      Route.parse_pickQuery hrouter.isMade hparams.query]

/-- A search for a link whose path does not end in the index file leads to the route, with the parameters of the link
over the defaults of the route. -/
theorem IsLink.exists_transition {core link : Text} (h : router.IsLink r steps params core link)
    (hrouter : router.Holds r) (htarget : IsTarget r) (hsteps : r.HasSteps steps) (hparams : r.IsGiven steps params)
    (hindex : ¬ EndsInIndex router.settings.indexFile ('/' :: core)) :
    ∃ t, (router.matchLocation link).outcome = .ok (some t) ∧ t.source = router.current ∧
      t.target = [router.tree.root.route, r] ∧
      ∀ name, t.params.get? name = (params.get? name).or (r.defaults.get? name) := by
  obtain ⟨root, htree, hroot, id, spec, hchild⟩ := hrouter.exists_root
  obtain ⟨found, hfound, hvalues⟩ := Route.values_of_fits hrouter.isMade hsteps hparams.toTakesTexts h.fits
  have hdelimiter : root.delimiter ≠ [] := (Branch.child_continues hchild).1 ▸ hsteps.delimiter
  have hselect := Branch.select_below hroot hrouter.isMade hdelimiter hsteps hfound
  have hm : ((Branch.node root [.node r []]).matchPath core (r.pickQuery params) .empty).outcome =
      .ok (some ⟨[root], r, r.mergeParams ⟨(variablesOf steps).map fun name => (name, Route.paramValue params name)⟩
        (Branch.Selection.queryParams ⟨[root], r, found⟩ (r.pickQuery params) .empty)⟩) := by
    rw [Branch.outcome_matchPath_of_select hselect, Option.elim, Branch.Selection.matched, hvalues]
    rfl
  have hdrop : Text.dropLeading '/' ('/' :: core) = core := dropLeading_of_head_ne h.head
  have hsearch := h.search
  rw [dropIndex_of_not hindex, rooted_cons h.head, hdrop, htree] at hsearch
  refine ⟨{ source := router.current, target := [root, r], params := _ },
    (hsearch _).mpr ⟨_, hm, follow_of_stays htarget.stays _ _, rfl⟩, rfl, ?_,
    hparams.get?_mergeParams hroot (hsteps.nodup_variables hrouter.isMade) found⟩
  rw [htree]
  rfl

/-- A search for a link whose path ends in the index file leads to the root, if anywhere. -/
theorem IsLink.target_of_index {core link : Text} (h : router.IsLink r steps params core link)
    (hrouter : router.Holds r) (hsteps : r.HasSteps steps) (hparams : r.IsGiven steps params)
    (hindex : EndsInIndex router.settings.indexFile ('/' :: core)) {t : Transition}
    (ht : (router.matchLocation link).outcome = .ok (some t)) : t.target = [router.tree.root.route] := by
  obtain ⟨root, htree, hroot, -⟩ := hrouter.exists_root
  obtain ⟨rest, hcut, hends, hrest⟩ := exists_rest_of_endsInIndex hindex h.head
  obtain ⟨m, hm, hfollow, -⟩ := (h.search t).mp ht
  rw [hrest, htree] at hm
  -- the path is not that of the route any more
  have hnone : r.pattern.whole.matchWhole rest = none := by
    rw [hsteps.whole_eq hrouter.isMade]
    exact matchWhole_of_cut h.fits hparams.mem_without hindex.1 hends hcut
  have hlineage := Branch.lineage_of_matchPath_none hnone hm
  have hlast : m.route = root := by simpa using congrArg List.getLast? hlineage
  rw [hlineage, hlast, follow_of_stays (redirectTarget_of_content_empty hroot.content)] at hfollow
  rw [htree]
  exact (Except.ok.inj hfollow).symm

/-- A link to the only route of a router is matched: the search leads from the current route to that route, with the
parameters that the link was asked for over the defaults of the route. If the path ends in the index file, which is
cut off before the search, it leads to the root if anywhere. -/
theorem matchLocation_link (hrouter : router.Holds r) (htarget : IsTarget r) (hsteps : r.HasSteps steps)
    (hmarks : ∀ text, .literal text ∈ steps → '?' ∉ text) (hparams : r.IsGiven steps params) :
    ∃ path link, r.path params = .ok path ∧ router.link (.dotted r.name) params none {} = .ok link ∧
      (¬ EndsInIndex router.settings.indexFile path → ∃ t, (router.matchLocation link).outcome = .ok (some t) ∧
        t.source = router.current ∧ t.target = [router.tree.root.route, r] ∧
        ∀ name, t.params.get? name = (params.get? name).or (r.defaults.get? name)) ∧
      (EndsInIndex router.settings.indexFile path → ∀ t, (router.matchLocation link).outcome = .ok (some t) →
        t.target = [router.tree.root.route]) := by
  obtain ⟨core, link, h⟩ := exists_isLink hrouter htarget hsteps hmarks hparams
  refine ⟨_, link, h.path, h.written, fun hindex => ?_, fun hindex t ht => ?_⟩
  · rw [endsInIndex_path] at hindex
    exact h.exists_transition hrouter htarget hsteps hparams hindex
  · rw [endsInIndex_path] at hindex
    exact h.target_of_index hrouter hsteps hparams hindex ht

end Link

/-- The route `blog/{v}?{q}` below the base path `/app`, with the text `x/ÿ %` and a list of two texts. -/
theorem coded_link_is_matched :
    ∃ (router : Router) (r : Route) (params : Mapping Value), router.Holds r ∧ router.basePath = "/app".toList ∧
      router.settings.indexFile = "index.html".toList ∧ r.name = "post".toList ∧
      r.pattern.path = "blog/\x7bv\x7d".toList ∧ r.pattern.queryNames = [['q']] ∧
      params = ⟨[(['v'], .str "x/ÿ %".toList), (['q'], .list [.str ['1'], .str []])]⟩ ∧
      r.path params = .ok "/blog/x%2F%C3%BF%20%25".toList ∧
      ∃ link t, router.link (.dotted r.name) params none {} = .ok link ∧
        (router.matchLocation link).outcome = .ok (some t) ∧ t.source = router.current ∧
        t.target = [router.tree.root.route, r] ∧ ∀ name, t.params.get? name = params.get? name := by
  let steps : List Step := [.literal "blog/".toList, .variable ['v']]
  let params : Mapping Value := ⟨[(['v'], .str "x/ÿ %".toList), (['q'], .list [.str ['1'], .str []])]⟩
  have htokens : tokenize ['/'] "blog/\x7bv\x7d".toList =
      .ok ⟨"blog/\x7bv\x7d".toList, tokensOf ['/'] steps⟩ := by
    cbv
  have hrule : Tokenized.rule ⟨"blog/\x7bv\x7d".toList, tokensOf ['/'] steps⟩ =
      .ok ⟨"blog/([^/]+)".toList, [⟨['v'], none⟩]⟩ := by
    cbv
  have hsplit : splitSuffix (RoutePattern.extend {} "blog/\x7bv\x7d?\x7bq\x7d".toList) =
      ("blog/\x7bv\x7d".toList, [['q']]) := by
    cbv
  obtain ⟨router, r, hsettings, hbase, hholds, hname, hdelimiter, hsteps, hpath, hquery, hdefaults, hcontent⟩ :=
    @exists_holds_of_steps {} (some "app/".toList) (by decide) ['/'] (List.cons_ne_nil _ _) "post".toList (by decide)
      (by decide) { pattern := "blog/\x7bv\x7d?\x7bq\x7d".toList } _ _ _ _ steps hsplit (by decide) htokens hrule rfl
      (.literal (.var .nil))
  have htarget : IsTarget r := by
    refine ⟨?_, ?_, ?_, redirectTarget_of_content_empty hcontent⟩
    · rw [hname]; decide
    · rw [hname]; decide
    · rw [hname]; decide
  have hgiven : r.IsGiven steps params := by
    refine ⟨Route.takesTexts_of_slash hdelimiter (by decide) ?_, ?_, fun name hv hq => ?_⟩
    · exact List.forall_mem_singleton.mpr ⟨_, by decide, rfl⟩
    · rw [hquery]
      exact List.forall_mem_singleton.mpr (Or.inr ⟨[['1'], []], List.cons_ne_nil _ _, rfl⟩)
    · rw [hquery] at hq
      rw [Mapping.get?, Mapping.find_eq_none_iff]
      simp_all [params, steps, variablesOf]
  have hmarks : ∀ text, .literal text ∈ steps → '?' ∉ text := by
    simp [steps]
  obtain ⟨path, link, hwritten, hlink, hfound, -⟩ := matchLocation_link hholds htarget hsteps hmarks hgiven
  have hfits : path = "/blog/x%2F%C3%BF%20%25".toList := by
    obtain ⟨core, hfits, -, hcore⟩ := Route.path_of_steps hholds.isMade hsteps hgiven.toTakesTexts
    rw [hwritten, Except.ok.injEq] at hcore
    rw [hcore]
    have hfits : Fits [.literal "blog/".toList, .variable ['v']] _ core := hfits
    cases hfits with
    | literal h =>
      cases h with
      | var h =>
        cases h
        cbv
  have hindex : ¬ EndsInIndex router.settings.indexFile path := by
    rw [hsettings, hfits]
    rintro ⟨-, hsuffix⟩
    exact absurd (List.isSuffixOf_iff_suffix.mpr hsuffix) (by decide)
  obtain ⟨t, ht, hsource, hlineage, hall⟩ := hfound hindex
  refine ⟨router, r, params, hholds, hbase, by rw [hsettings], hname, hpath, hquery, rfl, hfits ▸ hwritten, link, t,
    hlink, ht, hsource, hlineage, fun name => ?_⟩
  rw [hall, hdefaults]
  exact Option.or_none

/-- The route `{id}` with the text `index.html`: the link to it leads elsewhere. -/
theorem index_file_is_cut_off :
    ∃ (router : Router) (r : Route) (steps : List Step) (params : Mapping Value), router.Holds r ∧ IsTarget r ∧
      r.HasSteps steps ∧ (∀ text, .literal text ∈ steps → '?' ∉ text) ∧ r.IsGiven steps params ∧
      r.defaults = .empty ∧ router.settings = {} ∧ router.basePath = [] ∧ r.name = ['a'] ∧
      r.pattern.path = "\x7bid\x7d".toList ∧ params = ⟨[("id".toList, .str "index.html".toList)]⟩ ∧
      ∃ link, router.link (.dotted r.name) params none {} = .ok link ∧
        ∀ t, (router.matchLocation link).outcome = .ok (some t) → t.target ≠ [router.tree.root.route, r] := by
  let steps : List Step := [.variable "id".toList]
  let params : Mapping Value := ⟨[("id".toList, .str "index.html".toList)]⟩
  have htokens : tokenize ['/'] "\x7bid\x7d".toList = .ok ⟨"\x7bid\x7d".toList, tokensOf ['/'] steps⟩ := by
    cbv
  have hrule : Tokenized.rule ⟨"\x7bid\x7d".toList, tokensOf ['/'] steps⟩ =
      .ok ⟨"([^/]+)".toList, [⟨"id".toList, none⟩]⟩ := by
    cbv
  have hsplit : splitSuffix (RoutePattern.extend {} "\x7bid\x7d".toList) = ("\x7bid\x7d".toList, []) := by
    cbv
  obtain ⟨router, r, hsettings, hbase, hholds, hname, hdelimiter, hsteps, hpath, hquery, hdefaults, hcontent⟩ :=
    @exists_holds_of_steps {} none (by decide) ['/'] (List.cons_ne_nil _ _) ['a'] (by decide) (by decide)
      { pattern := "\x7bid\x7d".toList } _ _ _ _ steps hsplit (by decide) htokens hrule rfl (.var .nil)
  have htarget : IsTarget r := by
    refine ⟨?_, ?_, ?_, redirectTarget_of_content_empty hcontent⟩
    · rw [hname]; decide
    · rw [hname]; decide
    · rw [hname]; decide
  have hgiven : r.IsGiven steps params := by
    refine ⟨Route.takesTexts_of_slash hdelimiter (by decide) ?_, ?_, fun name hv hq => ?_⟩
    · exact List.forall_mem_singleton.mpr ⟨_, by decide, rfl⟩
    · simp [hquery]
    · rw [Mapping.get?, Mapping.find_eq_none_iff]
      simp_all [params, steps, variablesOf]
  have hmarks : ∀ text, .literal text ∈ steps → '?' ∉ text := by
    simp [steps]
  obtain ⟨core, link, hlink⟩ := exists_isLink hholds htarget hsteps hmarks hgiven
  have hcore : core = "index.html".toList := by
    have hfits : Fits [.variable "id".toList] _ core := hlink.fits
    cases hfits with
    | var h =>
      cases h
      cbv
  have hindex : EndsInIndex router.settings.indexFile ('/' :: core) := by
    rw [hsettings, hcore]
    exact ⟨by decide, List.suffix_refl _⟩
  refine ⟨router, r, steps, params, hholds, htarget, hsteps, hmarks, hgiven, hdefaults, hsettings, hbase, hname, hpath,
    rfl, link, hlink.written, fun t ht htwo => ?_⟩
  rw [hlink.target_of_index hholds hsteps hgiven hindex ht] at htwo
  cases htwo

end Router

end Routing
