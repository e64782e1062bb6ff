import Routing.Proofs.Query.Values
import Routing.Proofs.Router.BasePath

/-!
# Queries that are written anew

The values of a query are written as a query again where they enter a link. They come back from it unless a name that is
empty or of several lines has two values or more (`comeBack_iff`). The list of such a name is written under a key with
brackets like any other one, but the key is not read as that of a list (`not_isList_of_reread`). A search reads the query
of its location in normal form, and that is the query that was written (`Router.search_normalize`).
-/

namespace Routing

namespace Query

/-! ### The values of a query come back -/

section Collected

variable {pairs : List (Text × Text)} {m : Mapping Value} {name : Text} {v : Value}

theorem IsCollected.nodup_keys (h : IsCollected pairs m) : m.keys.Nodup := by
  rw [h.keys]
  exact nodup_eraseDups _

/-- A name that is not under brackets is its own key. -/
theorem eq_of_nameOf {key : Text} (h : nameOf key = name) (hplain : ¬ Brackets name key) : key = name := by
  by_cases hbrackets : ∃ base, Brackets base key
  · obtain ⟨base, hbase⟩ := hbrackets
    rw [nameOf_of_brackets hbase] at h
    exact absurd (h ▸ hbase) hplain
  · rwa [nameOf_of_plain (not_exists.mp hbrackets)] at h

theorem nameOf_of_mem_pairsFor {pair : Text × Text} (h : pair ∈ pairsFor name pairs) : nameOf pair.1 = name := by
  simpa using (List.mem_filter.mp h).2

/-- An entry of a query comes back, as long as no list is under a name that is empty or of several lines. -/
theorem comesBack_of_valueOf (hvalue : valueOf (pairsFor name pairs) = some v)
    (h : 2 ≤ (pairsFor name pairs).length → name ≠ [] ∧ '\n' ∉ name) : ComesBack (name, v) := by
  have hlist := isList_of_valueOf hvalue
  have htexts := flattens_of_valueOf hvalue
  have hkey : ∀ {pair}, pairsFor name pairs = [pair] → nameOf pair.1 = name := fun hpair =>
    nameOf_of_mem_pairsFor (hpair ▸ List.mem_singleton.mpr rfl)
  by_cases hv : v.IsList
  · have hname : name ≠ [] ∧ '\n' ∉ name := by
      rcases hlist.mp hv with htwo | ⟨key, t, hpair, base, hbase⟩
      · exact h htwo
      · obtain rfl : base = name := (nameOf_of_brackets hbase).symm.trans (hkey hpair)
        exact ⟨hbase.1, hbase.2.1⟩
    have hne : (pairsFor name pairs).map Prod.snd ≠ [] := by
      rw [ne_eq, List.map_eq_nil_iff, ← valueOf_eq_none_iff, hvalue]
      nofun
    rw [htexts.eq_list hv]
    exact .list (bracketBase_brackets hname.1 hname.2) hne
  · obtain ⟨t, hsingle, rfl⟩ := htexts.eq_text hv
    obtain ⟨⟨key, s⟩, hpair, -⟩ := List.map_eq_singleton_iff.mp hsingle
    have hplain : ∀ base, ¬ Brackets base key := fun base hbase =>
      hv (hlist.mpr (Or.inr ⟨key, s, hpair, base, hbase⟩))
    refine .text ?_
    rw [← hkey hpair, nameOf_of_plain hplain]
    exact bracketBase_eq_none.mpr hplain

/-- The values of a query are written under their names, and lists under their names with brackets. -/
theorem of_mem_toPairs (hnodup : m.keys.Nodup) {key t : Text} (h : (key, t) ∈ toPairs m) :
    (∃ v, m.get? key = some v ∧ ¬ v.IsList) ∨
      ∃ name v, m.get? name = some v ∧ v.IsList ∧ key = name ++ ['[', ']'] := by
  obtain ⟨⟨name, v⟩, hentry, hpair⟩ := List.mem_flatMap.mp h
  have hget := Mapping.get?_of_mem hnodup hentry
  by_cases hlist : v.IsList
  · obtain ⟨items, rfl⟩ := hlist
    obtain ⟨item, -, heq⟩ := List.mem_map.mp hpair
    exact Or.inr ⟨name, _, hget, ⟨items, rfl⟩, (Prod.mk.inj heq).1.symm⟩
  · refine Or.inl ⟨v, ?_, hlist⟩
    have hkey : key = name := by
      cases v with
      | null => cases hpair
      | list items => exact absurd ⟨items, rfl⟩ hlist
      | bool | int | float | str | object => exact (Prod.mk.inj (List.mem_singleton.mp hpair)).1
    rw [hkey, hget]

/-- No name that is empty or of several lines has a list among values that come back. -/
theorem not_isList_of_reread (hnodup : m.keys.Nodup) (h : parse (serialize m) = m)
    (hname : name = [] ∨ '\n' ∈ name) (hv : m.get? name = some v) : ¬ v.IsList := by
  intro hlist
  have hcollected := isCollected_parse (serialize m)
  rw [pairs_serialize, h] at hcollected
  have hplain : ∀ key, ¬ Brackets name key := fun key hkey => hname.elim hkey.1 hkey.2.1
  -- the shortest such name is not the key of another list, so that nothing would give its value
  induction hlength : name.length using Nat.strong_induction_on generalizing name v with
  | _ n ih =>
    have hpairs : pairsFor name (toPairs m) ≠ [] := by
      rw [ne_eq, ← valueOf_eq_none_iff, ← hcollected.value, hv]
      nofun
    obtain ⟨⟨key, t⟩, hpair⟩ := List.exists_mem_of_ne_nil _ hpairs
    obtain rfl : key = name := eq_of_nameOf (nameOf_of_mem_pairsFor hpair) (hplain key)
    rcases of_mem_toPairs hnodup (List.mem_filter.mp hpair).1 with ⟨w, hw, hnot⟩ | ⟨shorter, w, hw, hwlist, rfl⟩
    · exact hnot (Option.some.inj (hv.symm.trans hw) ▸ hlist)
    · have hshorter : '\n' ∈ shorter := by simpa using hname
      refine ih shorter.length ?_ (Or.inr hshorter) hw hwlist (fun key hkey => hkey.2.1 hshorter) rfl
      rw [← hlength, List.length_append]
      exact Nat.lt_add_of_pos_right (by decide)

end Collected

/-- The values of a query come back just when every name with two values or more is of one line and not empty. -/
theorem comeBack_iff (query : Text) :
    parse (serialize (parse query)) = parse query ↔
      ∀ name, 2 ≤ (pairsFor name (pairs query)).length → name ≠ [] ∧ '\n' ∉ name := by
  have hcollected := isCollected_parse query
  constructor
  · intro h name htwo
    cases hvalue : valueOf (pairsFor name (pairs query)) with
    | none =>
      rw [valueOf_eq_none_iff.mp hvalue] at htwo
      cases htwo
    | some v =>
      have hlist := (isList_of_valueOf hvalue).mpr (Or.inl htwo)
      rw [← not_or]
      intro hname
      exact not_isList_of_reread hcollected.nodup_keys h hname ((hcollected.value name).trans hvalue) hlist
  · intro h
    rw [parse, pairs_serialize]
    refine @foldl_toPairs_of_comesBack [] _ hcollected.nodup_keys fun e he => ?_
    obtain ⟨name, v⟩ := e
    have hget := Mapping.get?_of_mem hcollected.nodup_keys he
    exact comesBack_of_valueOf ((hcollected.value name).symm.trans hget) (h name)

end Query

/-! ### The query of a link -/

/-- A query is written behind the link without one. -/
theorem Route.link_eq_withQuery {r : Route} {settings : Settings} {params : Mapping Value} {o : LinkOptions}
    {place : Text} (h : r.link settings params o none = .ok place) (query : LinkQuery) :
    r.link settings params o (some query) = .ok (withQuery place (Query.serialize query.params)) := by
  obtain ⟨path, hpath, rfl⟩ := Pattern.map_eq_ok.mp h
  have hnone : Query.serialize ((Option.map LinkQuery.params none).getD .empty) = [] := rfl
  refine Pattern.map_eq_ok.mpr ⟨path, hpath, ?_⟩
  simp only [LinkOptions.link, hnone, withQuery, Option.map_some, Option.getD_some, List.isEmpty_nil, if_true]
  cases Query.serialize query.params <;> cases o.absolute <;> simp

/-- The query of a location is the same in normal form. -/
theorem Router.search_normalize (router : Router) {place : Text} (h : '?' ∉ place) (search : Text) :
    (Text.cut '?' (router.normalize (withQuery place search))).2.getD [] = search := by
  rw [cut_location, (parts_normalize router _).2, (parts_withQuery h search).2]
  cases search with
  | nil => rfl
  | cons c search => simp

namespace Query

/-- The values of a query come back just when every name with two values or more is of one line and not empty. A link
has the query that they are written as, and a search for the link reads it, whatever the router: unless the link has a
question mark before it. -/
theorem parse_serialize_parse (query : Text) :
    (parse (serialize (parse query)) = parse query ↔
        ∀ name, 2 ≤ (pairsFor name (pairs query)).length → name ≠ [] ∧ '\n' ∉ name) ∧
      ∀ (route : Route) (settings : Settings) (params : Mapping Value) (o : LinkOptions) (place : Text),
        route.link settings params o none = .ok place → '?' ∉ place →
          ∃ l, route.link settings params o (some (.text query)) = .ok l ∧
            ∀ router : Router, parse ((Text.cut '?' (router.normalize l)).2.getD []) =
              parse (serialize (parse query)) := by
  refine ⟨comeBack_iff query, fun route settings params o place hplace hmark => ?_⟩
  refine ⟨_, route.link_eq_withQuery hplace (.text query), fun router => ?_⟩
  rw [Router.search_normalize router hmark]
  rfl

/-- A list of one text, a list with an empty text, and single texts under no name and under a line break. -/
theorem single_text_without_name_comes_back :
    ∃ (route : Route) (query l : Text), route.IsMade ∧ query = "k[3]=x&q=&q=a%20b&=1&%0A=2".toList ∧
      route.link {} .empty {} (some (.text query)) = .ok l ∧
      l = "/n?k%5B%5D=x&q%5B%5D=&q%5B%5D=a+b&=1&%0A=2".toList ∧
      parse query = ⟨[(['k'], .list [.str ['x']]), (['q'], .list [.str [], .str "a b".toList]), ([], .str ['1']),
        (['\n'], .str ['2'])]⟩ ∧
      ∃ router : Router, parse ((Text.cut '?' (router.normalize l)).2.getD []) = parse query := by
  have hrun : (RoutePattern.ofText ['/'] ['n']).Gives fun p =>
      Route.link { id := 0, delimiter := ['/'], pattern := p } {} .empty {} none = .ok ['/', 'n'] := by
    cbv
  obtain ⟨p, hp, hplace⟩ := Traced.exists_of_gives hrun
  obtain ⟨tree, -, -, -⟩ := exists_create (List.cons_ne_nil '/' [])
  obtain ⟨hback, hread⟩ := parse_serialize_parse "k[3]=x&q=&q=a%20b&=1&%0A=2".toList
  obtain ⟨l, hl, hsearch⟩ := hread _ _ _ _ _ hplace (by decide)
  have hlink := Except.ok.inj (hl.symm.trans (Route.link_eq_withQuery hplace _))
  have hnames : (pairs "k[3]=x&q=&q=a%20b&=1&%0A=2".toList).map (fun pair => nameOf pair.1) =
      [['k'], ['q'], ['q'], [], ['\n']] := by
    cbv
  have hwritten : withQuery ['/', 'n'] (serialize (LinkQuery.text "k[3]=x&q=&q=a%20b&=1&%0A=2".toList).params) =
      "/n?k%5B%5D=x&q%5B%5D=&q%5B%5D=a+b&=1&%0A=2".toList := by
    cbv
  refine ⟨{ id := 0, delimiter := ['/'], pattern := p }, "k[3]=x&q=&q=a%20b&=1&%0A=2".toList, l, ⟨_, hp⟩, rfl, hl,
    hlink.trans hwritten, by cbv, { settings := {}, basePath := [], tree },
    (hsearch _).trans (hback.mpr fun name htwo => ?_)⟩
  rw [length_pairsFor, hnames] at htwo
  have hname : name ∈ [['k'], ['q'], ['q'], [], ['\n']] := List.count_pos_iff.mp (by omega)
  simp only [List.mem_cons, List.not_mem_nil, or_false] at hname
  rcases hname with rfl | rfl | rfl | rfl | rfl <;> revert htwo <;> decide

/-- Two texts under no name: their list is written under `[]`, and comes back under that name. So do two texts under a
line break. -/
theorem list_without_name_is_renamed :
    parse "=1&=2".toList = ⟨[([], .list [.str ['1'], .str ['2']])]⟩ ∧
      parse (serialize (parse "=1&=2".toList)) = ⟨[(['[', ']'], .list [.str ['1'], .str ['2']])]⟩ ∧
      parse (serialize (parse "=1&=2".toList)) ≠ parse "=1&=2".toList ∧
      parse (serialize (parse "%0A=1&%0A=2".toList)) ≠ parse "%0A=1&%0A=2".toList := by
  have hnameless : parse "=1&=2".toList = ⟨[([], .list [.str ['1'], .str ['2']])]⟩ := by cbv
  have hrenamed : parse (serialize (parse "=1&=2".toList)) = ⟨[(['[', ']'], .list [.str ['1'], .str ['2']])]⟩ := by cbv
  have hbroken : parse "%0A=1&%0A=2".toList = ⟨[(['\n'], .list [.str ['1'], .str ['2']])]⟩ := by cbv
  have hmoved : parse (serialize (parse "%0A=1&%0A=2".toList)) =
      ⟨[(['\n', '[', ']'], .list [.str ['1'], .str ['2']])]⟩ := by
    cbv
  refine ⟨hnameless, hrenamed, ?_, ?_⟩
  · rw [hrenamed, hnameless]
    simp
  · rw [hmoved, hbroken]
    simp

end Query

end Routing
