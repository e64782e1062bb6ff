import Routing.Proofs.Pattern.Casing
import Routing.Proofs.Route.Relinking

/-!
# Runs are read back

A path that is composed in one way is matched as it was composed (`matchPath_of_composes`). So a route with a run gives
the items that the text of the run is cut into (`matchPath_casing`), and the values that the path was written for if
these are their coded forms.
-/

namespace Routing

open Pattern

/-! ### Composed paths -/

namespace Branch

/-- A path that the tokens of a route compose in one way is matched, and each variable has the value of the text that it
has in the path. -/
theorem matchPath_of_composes {r : Route} (hr : r.IsMade)
    (hcaptures : ∀ c ∈ capturesOf r.pattern.tokens.tokens, IsPlainCapture c)
    (hspliceable : Spliceable false r.pattern.tokens.tokens)
    (hsplitters : ∀ name splitter, r.pattern.splitters.lookup name = some splitter → splitter.hasPossessive = false)
    {σ : Text → Option Text} {path : Text} (hσ : Composes σ r.pattern.tokens.tokens path)
    (honce : ReadsOnce r.pattern.tokens.tokens path) :
    ∃ values, ((node r []).matchPath path .empty .empty).outcome = .ok (some ⟨[], r, r.mergeParams values .empty⟩) ∧
      ∀ b ∈ boundOf none r.pattern.tokens.tokens, ∃ value,
        Route.variableValue r.pattern b.1 (σ b.1.name) = .ok value ∧
        (r.mergeParams values .empty).get? b.1.name = some (r.mergedValue b.1.name value) := by
  -- what a match captures does not depend on the defaults
  have hlink : ({ r with defaults := .empty } : Route).IsRelinkable :=
    ⟨hr, hcaptures, hspliceable, Or.inr hsplitters, List.nodup_nil⟩
  obtain ⟨hregular, hlanguage⟩ := hlink.entry_language
  obtain ⟨found, -, hfound, -⟩ := exists_matchWhole_of_mem_language hregular (hlanguage ▸ hσ.mem_wordsBy)
  rw [← hlink.assigned.whole_eq] at hfound
  obtain ⟨values, hvalues⟩ := hlink.exists_values found
  replace hvalues : r.values found = .ok values := hvalues
  obtain ⟨t, ht, htaken⟩ := hlink.exists_composes hfound
  refine ⟨values, matchPath_leaf hr hregular hfound hvalues, fun b hb => ?_⟩
  obtain ⟨value, hvalue, hget, -⟩ := hlink.value_of_mem hvalues hb
  have hsame := honce σ _ t hσ htaken ht b.1.name (mem_namesOf hb)
  rw [Route.variableValue_congr _ _ hsame] at hvalue
  exact ⟨value, hvalue, r.get?_mergeParams_empty (Route.nodup_keys_values hvalues) hget⟩

end Branch

/-! ### Runs -/

/-- What the rounds of a run capture are its values. -/
theorem Route.splitRun_of_cuts {splitter : Regex} (hregular : splitter.IsRegular) (hcount : splitter.captureCount = 1)
    (hempty : [] ∉ splitter.language) {items : List Text} {run : Text} (h : Cuts splitter items run) :
    splitRun splitter run = .ok (items.map roundValue) := by
  have hsound := Regex.crosses_search (Regex.hasPossessive_of_isRegular hregular) run
  have hround : ∀ u : Regex.Cursor, roundText splitter u = u.captured 1 := by
    intro u
    rw [roundText, hcount, List.range_one, List.findSome?_singleton]
  have hvalues : (splitter.search run).filterMap (fun round => (roundText splitter round).map roundValue) =
      items.map roundValue := by
    have hpicked := congrArg (List.filterMap (Option.map roundValue)) (h.search hregular hempty)
    simp only [List.filterMap_map, Function.comp_def, Option.map_some, List.filterMap_eq_map'] at hpicked
    simp only [hround]
    exact hpicked
  rw [splitRun]
  simp only [hsound, Bool.false_eq_true, if_false, hvalues]
  rfl

/-- A variable of a run has the values that the run is cut into. -/
theorem Route.variableValue_of_cuts {p : RoutePattern} {name raw : Text} {splitter : Regex}
    (hlookup : p.splitters.lookup name = some splitter) (hregular : splitter.IsRegular)
    (hcount : splitter.captureCount = 1) (hempty : [] ∉ splitter.language) {items : List Text} {run : Text}
    (h : Cuts splitter items run) :
    variableValue p ⟨name, some raw⟩ (some run) = .ok (.list (items.map roundValue)) := by
  rw [variableValue]
  cases hrun : run with
  | nil =>
    subst hrun
    obtain rfl : items = [] := by
      cases h with
      | nil => rfl
      | round _ hmoved => cases hmoved
    rfl
  | cons x rest =>
    simp only [Option.getD_some, hlookup, ← hrun, splitRun_of_cuts hregular hcount hempty h]
    rw [hrun]
    rfl

/-- Whether a pattern is that of a run with some texts around it. Its items are captured by `c`, and its rounds are
found by an expression that captures `e`. -/
structure RoutePattern.IsCased (p : RoutePattern) (k : Casing) (name c raw : Text) (e : Regex) : Prop where
  tokens : p.tokens.tokens = k.tokens name c raw
  capture : IsPlainCapture c
  spliceable : Spliceable false (k.tokens name c raw)
  item : e.IsRegular ∧ e.captureCount = 0
  splitters : p.splitters = [(name, k.splitter e)]

namespace Pattern.Casing

variable {k : Casing} {name c raw : Text}

/-- Such a pattern is assigned without an error, if that of a round can be read with slashes for the delimiter. -/
theorem exists_isCased {delimiter source c' : Text} {last : Char}
    (ht : tokenize delimiter source = .ok ⟨source, k.tokens name c raw⟩)
    (hraw : tokenize ['/'] raw = .ok ⟨raw, k.round name c'⟩) (hc : IsPlainCapture c) (hc' : IsPlainCapture c')
    (hs : Spliceable false (k.tokens name c raw)) (hhead : source.head? ≠ some '/')
    (hlast : source.getLast? = some last) (hend : last ≠ '\x7d' ∧ last ≠ '\n') :
    ∃ p e, (RoutePattern.ofText delimiter source).outcome = .ok p ∧ Regex.read c' = .ok e ∧
      p.IsCased k name c raw e := by
  obtain ⟨e, he⟩ := hc'.valid
  have hbare : e.IsBare := Regex.builds_isBare.read he fun l hl => Regex.Lexeme.isFree_of_isBare (hc'.bare l hl)
  have hcaptures : ∀ capture ∈ capturesOf (k.tokens name c raw), IsPlainCapture capture := by
    rw [capturesOf_tokens]
    exact List.forall_mem_singleton.mpr hc
  obtain ⟨entry, hentry, hwhole, -, -⟩ := (denotes_regexOf hcaptures hs 0).read_whole
  have hsplitters : (splittersOf [⟨name, some raw⟩]).outcome = .ok [(name, k.splitter e)] := by
    have hone : OneEach (k.round name c') := oneEach_of_length (by rw [namesOf_round]; exact Nat.le_refl 1)
    have hnames : (namesOf (k.round name c')).Nodup := by
      rw [namesOf_round]
      exact List.nodup_singleton name
    have hrule := ruleTraced_eq_ok.mpr ⟨_, hraw, rule_eq_ok_iff.mpr ⟨hnames, hone, rfl⟩⟩
    have hread := readRegex_eq_ok.mpr (@read_round k name _ hc' _ he)
    refine Traced.bind_outcome_eq_ok.mpr ⟨_, hrule, Traced.bind_outcome_eq_ok.mpr ⟨_, hread, ?_⟩⟩
    exact Traced.bind_outcome_eq_ok.mpr ⟨[], rfl, rfl⟩
  let p : RoutePattern := ⟨source, [], ⟨source, k.tokens name c raw⟩,
    ⟨regexOf false (k.tokens name c raw), [⟨name, some raw⟩]⟩, entry, Regex.seqAll [entry, Regex.optionalSlash],
    [(name, k.splitter e)]⟩
  have hassigned : p.Assigned delimiter := ⟨ht, k.rule_tokens name c raw source, hentry, hwhole, hsplitters⟩
  have hsplit : splitSuffix source = (source, []) := splitSuffix_of_getLast? hlast hend
  refine ⟨p, e, RoutePattern.ofText_of_assigned hassigned ?_ ?_, he, rfl, hc, hs,
    ⟨Regex.isRegular_of_read he hc'.plain, Regex.captureCount_of_isBare hbare⟩, rfl⟩
  · rw [hsplit, dropLeading_of_head_ne hhead]
  · rw [hsplit]

theorem captureCount_splitter {e : Regex} (he : e.captureCount = 0) : (k.splitter e).captureCount = 1 := by
  rw [splitter, captureCount_seqAll_append, captureCount_literal]
  show 0 + (e.captureCount + 1 + (Regex.seqAll _).captureCount) = 1
  rw [he, captureCount_literal]

end Pattern.Casing

section IsCased

variable {r : Route} {k : Casing} {name c raw : Text} {e : Regex}

/-- A run is written with the coded forms of its values. -/
theorem Route.text_casing (hp : r.pattern.IsCased k name c raw e) {values : List Value}
    (hvalues : ∀ v ∈ values, v.isNull = false ∧ encodeValue v ∈ takenBy c) :
    r.text ⟨[(name, .list values)]⟩ = .ok (k.text (values.map encodeValue)) := by
  let w : PathFor := ⟨r.name, r.pattern.path⟩
  have hliterals (t : Text) (absentAllowed : Bool) (params : Mapping Value) (before : Text) (rest : List Token) :
      w.write absentAllowed params before (literals t ++ rest) = w.write absentAllowed params (before ++ t) rest := by
    cases t with
    | nil => rw [List.append_nil]; rfl
    | cons c t => rw [literals, List.singleton_append, PathFor.write]
  have hend (t : Text) (absentAllowed : Bool) (params : Mapping Value) (before : Text) :
      w.write absentAllowed params before (literals t) = .ok (before ++ t) := by
    rw [← List.append_nil (literals t), hliterals, PathFor.write]
  have hget := Mapping.get?_putAll_singleton r.defaults name (.list values)
  have hround : ∀ v ∈ (Value.list values).items, w.write Suffix.star.mayBeAbsent
      ((r.defaults.putAll ⟨[(name, .list values)]⟩).put name v) [] (k.round name c) =
      .ok (k.item (encodeValue v)) := fun v hv => by
    have hput : ((r.defaults.putAll ⟨[(name, .list values)]⟩).put name v).get? name = some v := by
      rw [Mapping.get?_put, if_pos rfl]
    obtain ⟨hgiven, htaken⟩ := hvalues v hv
    rw [Casing.round, hliterals, PathFor.write_variable hput hgiven htaken, hend]
    rfl
  have hrun : k.run (values.map encodeValue) = (Value.list values).items.flatMap fun v => k.item (encodeValue v) := by
    rw [Casing.run, List.flatMap_map]
    rfl
  rw [Route.text, hp.tokens, Casing.tokens, hliterals, PathFor.write_rounds hget (fun _ => rfl) hround, hend, ← hrun]
  rfl

/-- A list stands for itself among the parameters of a match, unless it is empty and there is a default. -/
theorem Route.mergedValue_list {values : List Value} (hdefaults : values = [] → r.defaults.get? name = none) :
    r.mergedValue name (.list values) = .list values := by
  cases values with
  | nil => rw [mergedValue, hdefaults rfl, Option.getD_none, ite_self]
  | cons v values => rfl

/-- Whether a text has a character, and a slash at neither end. -/
structure IsUnslashed (t : Text) : Prop where
  ne_nil : t ≠ []
  head : t.head? ≠ some '/'
  last : t.getLast? ≠ some '/'

theorem isUnslashed_of_mem_without {t : Text} (h : t ∈ without '/') : IsUnslashed t :=
  ⟨h.1, fun hhead => h.2 (List.mem_of_mem_head? hhead), fun hlast => h.2 (List.mem_of_getLast? hlast)⟩

theorem isUnslashed_of_isName {word : Text} (h : IsName word) : IsUnslashed word :=
  isUnslashed_of_mem_without ⟨h.1, fun hmem => absurd (h.2 _ hmem) (by decide)⟩

theorem IsUnslashed.append {s t : Text} (hs : IsUnslashed s) (ht : IsUnslashed t) (between : Text) :
    IsUnslashed (s ++ between ++ t) := by
  refine ⟨List.append_ne_nil_of_right_ne_nil _ ht.ne_nil, ?_, ?_⟩
  · rw [List.append_assoc, List.head?_append_of_ne_nil _ hs.ne_nil]
    exact hs.head
  · rw [List.getLast?_append_of_ne_nil _ ht.ne_nil]
    exact ht.last

namespace Pattern.Casing

/-- The texts around the run of `word[d{…}]*`. -/
def leading (word : Text) (d : Char) : Casing := { before := word, opening := [d] }

/-- The text of such a run starts with the word, and ends with the last item or the word. -/
theorem isUnslashed_leading {word : Text} (hword : IsName word) (d : Char) {xs : List Text}
    (hxs : ∀ x ∈ xs, IsUnslashed x) : IsUnslashed ((leading word d).text xs) := by
  have hstart := isUnslashed_of_isName hword
  rcases List.eq_nil_or_concat xs with rfl | ⟨front, x, rfl⟩
  · simpa [leading, text, run] using hstart
  · have hx := hstart.append (hxs x (by simp)) ((leading word d).run front ++ [d])
    simpa [leading, text, run, item] using hx

end Pattern.Casing

/-- A route with a run writes a path for a list of values, and matches it with the values of the items that the run is
cut into. -/
theorem Branch.matchPath_casing (hr : r.IsMade) (hp : r.pattern.IsCased k name c raw e)
    (hempty : [] ∉ (k.splitter e).language) {values : List Value}
    (hvalues : ∀ v ∈ values, v.isNull = false ∧ encodeValue v ∈ takenBy c) {items : List Text}
    (hcuts : Cuts (k.splitter e) items (k.run (values.map encodeValue)))
    (hdefaults : items = [] → r.defaults.get? name = none) {path : Text}
    (hpath : k.text (values.map encodeValue) = path) (hends : IsUnslashed path) :
    ∃ found, r.path ⟨[(name, .list values)]⟩ = .ok ('/' :: path) ∧
      ((node r []).matchPath (Text.dropLeading '/' ('/' :: path)) .empty .empty).outcome = .ok (some found) ∧
      found.above = [] ∧ found.route = r ∧ found.params.get? name = some (.list (items.map Route.roundValue)) := by
  subst hpath
  obtain ⟨hregular, hcount⟩ := hp.item
  have hdrop : Text.dropLeading '/' ('/' :: k.text (values.map encodeValue)) = k.text (values.map encodeValue) := by
    rw [Text.dropLeading, List.dropWhile_cons_of_pos (by rfl)]
    exact dropLeading_of_head_ne hends.head
  have hwritten : r.path ⟨[(name, .list values)]⟩ = .ok ('/' :: k.text (values.map encodeValue)) := by
    have hfull : (k.text (values.map encodeValue)).isEmpty = false := by simpa using hends.ne_nil
    rw [Route.path, Route.text_casing hp hvalues, Except.map]
    simp only [dropLeading_of_head_ne hends.head, hfull, Bool.false_eq_true, if_false]
  have hlookup : r.pattern.splitters.lookup name = some (k.splitter e) := by
    rw [hp.splitters]
    exact List.lookup_cons_self
  have hsplitters : ∀ other splitter, r.pattern.splitters.lookup other = some splitter →
      splitter.hasPossessive = false := by
    rw [hp.splitters]
    intro other splitter hother
    obtain rfl : splitter = k.splitter e := by
      rw [List.lookup_cons] at hother
      split at hother
      · exact (Option.some.inj hother).symm
      · cases hother
    exact Regex.hasPossessive_of_isRegular (Casing.isRegular_splitter hregular)
  have hcaptures : ∀ capture ∈ capturesOf r.pattern.tokens.tokens, IsPlainCapture capture := by
    rw [hp.tokens, Casing.capturesOf_tokens]
    exact List.forall_mem_singleton.mpr hp.capture
  have htaken : ∀ x ∈ values.map encodeValue, x ∈ takenBy c := List.forall_mem_map.mpr fun v hv => (hvalues v hv).2
  have hcomposes : Composes (fun _ => some (k.run (values.map encodeValue))) (k.tokens name c raw)
      (k.text (values.map encodeValue)) := Casing.composes_text htaken rfl
  obtain ⟨found, hfound, hall⟩ := matchPath_of_composes hr hcaptures (hp.tokens ▸ hp.spliceable) hsplitters
    (hp.tokens ▸ hcomposes) (hp.tokens ▸ Casing.readsOnce_tokens hends.last)
  refine ⟨_, hwritten, hdrop ▸ hfound, rfl, rfl, ?_⟩
  rw [hp.tokens, Casing.boundOf_tokens, List.forall_mem_singleton] at hall
  obtain ⟨value, hvalue, hget⟩ := hall
  have hitems : Route.variableValue r.pattern ⟨name, some raw⟩ (some (k.run (values.map encodeValue))) =
      .ok (.list (items.map Route.roundValue)) :=
    Route.variableValue_of_cuts hlookup (Casing.isRegular_splitter hregular) (Casing.captureCount_splitter hcount)
      hempty hcuts
  rw [hitems, Except.ok.injEq] at hvalue
  rw [hget, ← hvalue, Route.mergedValue_list fun hnil => hdefaults (List.map_eq_nil_iff.mp hnil)]

end IsCased

end Routing
