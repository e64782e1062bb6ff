import Routing.Proofs.Route.Rereading
import Routing.Proofs.Tree.Precedence

/-!
# Matched parameters are linked again

The parameters that a route gives for a path can be written as a path again, where the captures take the coded values
(`exists_path_of_matchPath`). That path is not always the one that was matched, since a value is coded in one way only
(`code_is_written_anew`), but the route matches it. It gives the same parameters where the text is read as it was
written. A capture that takes a character and not its code has values that are refused (`matched_value_is_refused`).
-/

namespace Routing

open Pattern

namespace Route

/-! ### Conditions -/

/-- Whether the expressions of a route take what its tokens say. -/
structure IsRelinkable (r : Route) : Prop where
  made : r.IsMade
  /-- Captures have no captures of their own, and give back what they take. -/
  captures : ∀ c ∈ capturesOf r.pattern.tokens.tokens, IsPlainCapture c
  spliceable : Spliceable false r.pattern.tokens.tokens
  /-- Runs are cut by expressions that give back what they take, as those of the captures do. -/
  splitters : r.delimiter = ['/'] ∨
    ∀ name splitter, r.pattern.splitters.lookup name = some splitter → splitter.hasPossessive = false
  keys : r.defaults.keys.Nodup

/-- Whether a variable has the default capture and no default, in one repeated group at most. Its capture takes the
coded form of whatever a match gives to it. -/
structure IsUsual (r : Route) (v : Variable) (c : Text) : Prop where
  capture : c = defaultCapture ['/']
  default : r.defaults.get? v.name = none
  round : ∀ raw children, v.repeated = some raw → tokenize r.delimiter raw = .ok ⟨raw, children⟩ →
    r.delimiter = ['/'] ∧ boundOf none children = [(⟨v.name, none⟩, c)]

/-- Whether a match gave no value to a variable. -/
def Misses (r : Route) (found : Regex.Cursor) (name : Text) : Prop :=
  ∀ values value, r.values found = .ok values → values.get? name = some value → isAbsent value = true

/-- Whether the parameters of a match pass the checks of a path that is written for them. -/
structure IsWritable (r : Route) (found : Regex.Cursor) (params : Mapping Value) : Prop where
  coded : ∀ b ∈ boundOf none r.pattern.tokens.tokens, ¬ r.IsUsual b.1 b.2 →
    ∀ value, (r.defaults.putAll params).get? b.1.name = some value → IsCoded r.delimiter b.1 b.2 value
  /-- A variable outside of the groups has a value. -/
  given : ¬ LeavesOut (r.defaults.putAll params) (takenTexts r.pattern.tokens.tokens found) r.pattern.tokens.tokens
  groups : OuterAll (takenTexts r.pattern.tokens.tokens found)
    (IsRewritable r.delimiter (r.defaults.putAll params) (takenTexts r.pattern.tokens.tokens found))
    r.pattern.tokens.tokens

/-- Whether the parameters of a match are those of what is written for them. -/
structure IsReread (r : Route) (found : Regex.Cursor) (params : Mapping Value) : Prop where
  /-- No group is left out that has a value. -/
  kept : OuterAll (takenTexts r.pattern.tokens.tokens found)
    (IsKept (r.defaults.putAll params) (takenTexts r.pattern.tokens.tokens found) (r.Misses found))
    r.pattern.tokens.tokens
  values : ∀ b ∈ boundOf none r.pattern.tokens.tokens,
    b.1.repeated.isSome ∨ (r.defaults.get? b.1.name).isSome → r.ReadsBack (r.defaults.putAll params) b.1

namespace IsRelinkable

variable {r : Route} (hr : r.IsRelinkable)

include hr

theorem assigned : r.pattern.Assigned r.delimiter := hr.made.assigned

theorem nodup_namesOf : (namesOf r.pattern.tokens.tokens).Nodup := by
  have hnodup := hr.assigned.nodup_vars
  rwa [hr.assigned.vars_eq, map_name_varsOf] at hnodup

theorem oneEach : OneEach r.pattern.tokens.tokens := oneEach_of_tokensRule hr.assigned.rule

theorem faithful : GroupsAll (FaithfulGroup r.delimiter) r.pattern.tokens.tokens :=
  faithfulGroup_of_tokenize hr.assigned.tokens

/-- The expression of the route is that of items that realize its tokens. -/
theorem exists_realizes : ∃ items, Realizes 0 r.pattern.tokens.tokens items ∧
    r.pattern.entry = Regex.seqAll (items.map Regex.Item.regex) := by
  obtain ⟨items, hreads, hitems⟩ :=
    Pattern.exists_realizes hr.captures hr.spliceable hr.oneEach 0
  have hentry := hr.assigned.entry
  rw [hr.assigned.regex_eq, hreads.read, Except.ok.injEq] at hentry
  exact ⟨items, hitems, hentry.symm⟩

/-- The expression of the route takes the words of its tokens. -/
theorem entry_language :
    r.pattern.entry.IsRegular ∧ r.pattern.entry.language = wordsBy takenBy r.pattern.tokens.tokens := by
  obtain ⟨e, he, hregular, hlanguage⟩ := (denotes_regexOf hr.captures hr.spliceable 0).read
  have hentry := hr.assigned.entry
  rw [hr.assigned.regex_eq, he, Except.ok.injEq] at hentry
  exact hentry ▸ ⟨hregular, hlanguage⟩

/-- The expression has a capture for each variable. -/
theorem captureCount_whole : r.pattern.whole.captureCount = r.pattern.rule.vars.length := by
  obtain ⟨items, hitems, hentry⟩ := hr.exists_realizes
  rw [hr.assigned.whole_eq, hr.assigned.vars_eq, ← map_fst_boundOf, List.length_map, length_boundOf,
    ← hitems.captureCount, ← hentry]
  rfl

/-- A match composes its path of what it captures. -/
theorem exists_composes {path : Text} {found : Regex.Cursor} (hfound : r.pattern.whole.matchWhole path = some found) :
    ∃ t, (path = t ∨ path = t ++ ['/']) ∧
      Composes (takenTexts r.pattern.tokens.tokens found) r.pattern.tokens.tokens t := by
  obtain ⟨items, hitems, hentry⟩ := hr.exists_realizes
  rw [hr.assigned.whole_eq, hentry] at hfound
  exact hitems.exists_composes hr.nodup_namesOf hfound

/-- There is an expression that cuts the runs of a repeated variable. -/
theorem exists_lookup {name raw c : Text} (hmem : (⟨name, some raw⟩, c) ∈ boundOf none r.pattern.tokens.tokens) :
    ∃ t splitter, tokenize ['/'] raw = .ok t ∧ Regex.read (regexOf false t.tokens) = .ok splitter ∧
      r.pattern.splitters.lookup name = some splitter := by
  have hvar : ⟨name, some raw⟩ ∈ r.pattern.rule.vars := by
    rw [hr.assigned.vars_eq, ← map_fst_boundOf]
    exact List.mem_map_of_mem hmem
  obtain ⟨rule, splitter, hrule, hsplitter, hlookup⟩ :=
    lookup_of_splittersOf hr.assigned.splitters hr.assigned.nodup_vars hvar
  obtain ⟨t, ht, hrule⟩ := ruleTraced_eq_ok.mp hrule
  have hregex : rule.regex = regexOf false t.tokens := tokensRule_eq_ok hrule ▸ rfl
  exact ⟨t, splitter, ht, hregex ▸ hsplitter, hlookup⟩

/-- If slashes are the delimiter, it takes the rounds of the group. -/
theorem exists_splitter (hdelimiter : r.delimiter = ['/']) {name raw c : Text}
    (hmem : (⟨name, some raw⟩, c) ∈ boundOf none r.pattern.tokens.tokens) :
    ∃ children splitter, tokenize r.delimiter raw = .ok ⟨raw, children⟩ ∧
      Regex.read (regexOf false children) = .ok splitter ∧ IsSplitter splitter children ∧
      r.pattern.splitters.lookup name = some splitter := by
  obtain ⟨children, hraw, hbound, hspliceable⟩ := round_of_mem_boundOf hr.faithful hr.oneEach hr.spliceable hmem
  obtain ⟨t, splitter, ht, hsplitter, hlookup⟩ := hr.exists_lookup hmem
  obtain rfl : t = ⟨raw, children⟩ := by
    rw [hdelimiter, ht] at hraw
    exact Except.ok.inj hraw
  exact ⟨children, splitter, hraw, hsplitter,
    isSplitter_of_read hbound (hr.captures c (mem_capturesOf hmem)) hspliceable hsplitter, hlookup⟩

/-! ### Values -/

/-- The value of a repeated variable is a list of what the rounds captured, with an item if every round has one. -/
theorem exists_items (hdelimiter : r.delimiter = ['/']) {name raw c : Text}
    (hmem : (⟨name, some raw⟩, c) ∈ boundOf none r.pattern.tokens.tokens) (captured : Option Text) :
    ∃ children items, tokenize r.delimiter raw = .ok ⟨raw, children⟩ ∧
      variableValue r.pattern ⟨name, some raw⟩ captured = .ok (.list items) ∧
      (∀ item ∈ items, ∃ x w, Composes (fun _ => some x) children w ∧ item = roundValue x) ∧
      ∀ other, (∀ σ t, Composes σ children t → σ other ≠ none) →
        captured.getD [] ∈ KStar.kstar (wordsBy takenBy children) → captured.getD [] ≠ [] → items ≠ [] := by
  obtain ⟨children, splitter, hraw, -, hsplitter, hlookup⟩ := hr.exists_splitter hdelimiter hmem
  by_cases hnil : captured.getD [] = []
  · refine ⟨children, [], hraw, ?_, by simp, fun _ _ _ hne => absurd hnil hne⟩
    rw [variableValue]
    simp [hnil]
  · obtain ⟨items, hrun, hitems, hsome⟩ := exists_splitRun hsplitter (captured.getD [])
    refine ⟨children, items, hraw, ?_, hitems, hsome⟩
    have hempty : (captured.getD []).isEmpty = false := by simpa using hnil
    simp only [variableValue, hempty, Bool.false_eq_true, if_false, hlookup, hrun]
    rfl

/-- The default capture takes the coded form of what a match gives. -/
theorem isCoded_of_isUsual {v : Variable} {c : Text} (hmem : (v, c) ∈ boundOf none r.pattern.tokens.tokens)
    (husual : r.IsUsual v c) {captured : Option Text} {value : Value}
    (hvalue : variableValue r.pattern v captured = .ok value) : IsCoded r.delimiter v c value := by
  obtain rfl := husual.capture
  obtain ⟨name, repeated⟩ := v
  cases repeated with
  | none =>
    intro hgiven
    rw [variableValue, Except.ok.injEq] at hvalue
    rw [← hvalue] at hgiven ⊢
    split at hgiven
    · cases hgiven
    · next hempty =>
      rw [if_neg hempty, encodeValue_str]
      exact coded_mem_takenBy (Text.percentDecode_ne_nil (by simpa using hempty))
  | some raw =>
    intro children hraw item hitem
    obtain ⟨hdelimiter, hbound⟩ := husual.round raw children rfl hraw
    obtain ⟨children', items, hraw', hvalue', hitems, -⟩ := hr.exists_items hdelimiter hmem captured
    rw [hvalue', Except.ok.injEq] at hvalue
    rw [hraw, Except.ok.injEq] at hraw'
    obtain rfl : children = children' := congrArg Tokenized.tokens hraw'
    rw [← hvalue] at hitem
    obtain ⟨x, w, hx, rfl⟩ := hitems item hitem
    -- the item is a text without a slash, and not empty
    have htaken := hx.isTaken (faithfulGroup_of_tokenize hraw) (hbound ▸ List.mem_singleton_self _) rfl
    rw [IsTaken, takenBy_slash] at htaken
    rw [roundValue_of_not_mem htaken.2]
    refine accepts_of_boundOf (faithfulGroup_of_tokenize hraw) rfl ?_
    rw [hbound, List.forall_mem_singleton, encodeValue_str]
    exact ⟨rfl, coded_mem_takenBy (Text.percentDecode_ne_nil htaken.1)⟩

/-- A run of slashes and texts is cut back into the texts, if the capture takes no slash, and of each text takes all at
first. -/
theorem readsBack_of_slash (hdelimiter : r.delimiter = ['/']) {params : Mapping Value} {name raw c : Text}
    {texts : List Text} {e : Regex} (hmem : (⟨name, some raw⟩, c) ∈ boundOf none r.pattern.tokens.tokens)
    (hraw : tokenize r.delimiter raw = .ok ⟨raw, [.literal ['/'], .variable name c]⟩) (he : Regex.read c = .ok e)
    (hslash : ∀ w ∈ takenBy c, '/' ∉ w) (hget : params.get? name = some (.list (texts.map .str))) (hne : texts ≠ [])
    (htexts : ∀ t ∈ texts, coded t ∈ takenBy c ∧ firstTaken e (coded t) = coded t) :
    r.ReadsBack params ⟨name, some raw⟩ := by
  rintro value u hvalue ⟨children, hchildren, rfl⟩
  obtain rfl : [.literal ['/'], .variable name c] = children := by
    rw [hraw, Except.ok.injEq] at hchildren
    exact congrArg Tokenized.tokens hchildren
  obtain rfl : .list (texts.map .str) = value := Option.some.inj (hget.symm.trans hvalue)
  obtain ⟨children, splitter, hraw', hread, -, hlookup⟩ := hr.exists_splitter hdelimiter hmem
  rw [hraw, Except.ok.injEq] at hraw'
  obtain rfl : [.literal ['/'], .variable name c] = children := congrArg Tokenized.tokens hraw'
  have hplain := hr.captures c (mem_capturesOf hmem)
  rw [read_round hplain he, Except.ok.injEq] at hread
  subst hread
  have hregular := Regex.isRegular_of_read he hplain.plain
  have hbare : e.IsBare := Regex.builds_isBare.read he fun l hl => Regex.Lexeme.isFree_of_isBare (hplain.bare l hl)
  have htaken := takenBy_of_read he hregular
  have hrun : filledRun [.literal ['/'], .variable name c] (.list (texts.map .str)) = runText (texts.map coded) := by
    simp [filledRun, Value.items, filled, runText, List.flatMap_map, encodeValue_str]
  have hcoded : ∀ x ∈ texts.map coded, x ∈ e.language :=
    List.forall_mem_map.mpr fun t ht => htaken ▸ (htexts t ht).1
  have hsplit := splitRun_runText hregular (Regex.captureCount_of_isBare hbare) (htaken ▸ hslash) hcoded
  have hsame : (texts.map coded).map (fun x => Value.str (Text.percentDecode (firstTaken e x))) = texts.map .str := by
    rw [List.map_map]
    refine List.map_congr_left fun t ht => ?_
    rw [Function.comp_apply, (htexts t ht).2, percentDecode_coded]
  rw [hsame] at hsplit
  refine ⟨.list (texts.map .str), ?_, ?_⟩
  · rw [hrun]
    exact variableValue_of_splitRun hlookup hsplit fun hnil => by rw [List.map_eq_nil_iff.mp hnil, List.map_nil]
  · obtain ⟨t, texts, rfl⟩ := List.exists_cons_of_ne_nil hne
    rfl

/-! ### Matches -/

section Found

variable {path : Text} {found : Regex.Cursor} {values : Mapping Value}

/-- A match gives a value to each variable. -/
theorem exists_values (found : Regex.Cursor) : ∃ values, r.values found = .ok values := by
  cases hvalues : r.values found with
  | ok values => exact ⟨values, rfl⟩
  | error e =>
    exfalso
    rw [Route.values] at hvalues
    cases hfrom : valuesFrom r.pattern found 1 r.pattern.rule.vars with
    | ok entries => rw [hfrom] at hvalues; cases hvalues
    | error e' =>
      have hcount : 1 + r.pattern.rule.vars.length ≤ r.pattern.whole.captureCount + 1 := by
        rw [hr.captureCount_whole, Nat.add_comm]
      obtain ⟨v, hv, captured, herror⟩ := error_of_valuesFrom hcount hfrom
      rw [hr.assigned.vars_eq, ← map_fst_boundOf, List.mem_map] at hv
      obtain ⟨⟨⟨name, repeated⟩, c⟩, hmem, rfl⟩ := hv
      cases repeated with
      | none => cases herror
      | some raw =>
        -- the splitter of a run has no possessive loop
        obtain ⟨-, splitter, -, -, hlookup⟩ := hr.exists_lookup hmem
        obtain ⟨-, splitter', hlookup', hpossessive⟩ := error_of_variableValue (fun _ _ => ⟨_, hlookup⟩) herror
        have hnone : splitter'.hasPossessive = false := by
          rcases hr.splitters with hdelimiter | hsplitters
          · obtain ⟨_, splitter, -, -, hsplitter, hlookup⟩ := hr.exists_splitter hdelimiter hmem
            rw [hlookup, Option.some.injEq] at hlookup'
            exact hlookup' ▸ Regex.hasPossessive_of_isRegular hsplitter.regular
          · exact hsplitters name splitter' hlookup'
        rw [hnone] at hpossessive
        cases hpossessive

/-- The value of a variable is that of the text that it took, and it is among the parameters unless it is absent and
there is a default. -/
theorem value_of_mem (hvalues : r.values found = .ok values) {b : Variable × Text}
    (hmem : b ∈ boundOf none r.pattern.tokens.tokens) :
    ∃ value, variableValue r.pattern b.1 (takenTexts r.pattern.tokens.tokens found b.1.name) = .ok value ∧
      values.get? b.1.name = some value ∧
      (r.mergeParams values .empty).get? b.1.name = some (r.mergedValue b.1.name value) ∧
      (r.defaults.putAll (r.mergeParams values .empty)).get? b.1.name = some (r.mergedValue b.1.name value) := by
  obtain ⟨i, hi, rfl⟩ := List.getElem_of_mem hmem
  have hvar : r.pattern.rule.vars[i]? = some (boundOf none r.pattern.tokens.tokens)[i].1 := by
    rw [hr.assigned.vars_eq, ← map_fst_boundOf, List.getElem?_map, List.getElem?_eq_getElem hi]
    rfl
  have hname : (namesOf r.pattern.tokens.tokens)[i]? = some (boundOf none r.pattern.tokens.tokens)[i].1.name := by
    rw [← map_name_varsOf none, ← map_fst_boundOf, List.map_map, List.getElem?_map, List.getElem?_eq_getElem hi]
    rfl
  have hnodup := nodup_keys_values hvalues
  obtain ⟨value, hvalue, hget⟩ := hr.assigned.value_of_values hvalues hvar
  have hparam := r.get?_mergeParams_empty hnodup hget
  rw [takenTexts_of_getElem? hr.nodup_namesOf hname]
  exact ⟨value, hvalue, hget, hparam, (r.get?_putAll_params hr.keys hnodup hget).trans hparam⟩

/-- A variable that took no part in the match has no value. -/
theorem misses_of_takenTexts {name : Text} (hnone : takenTexts r.pattern.tokens.tokens found name = none) :
    r.Misses found name := by
  intro values value hvalues hget
  have hname : name ∈ namesOf r.pattern.tokens.tokens := by
    rw [← map_name_varsOf none, ← hr.assigned.vars_eq, ← isSome_get?_values hvalues, hget]
    rfl
  obtain ⟨b, hmem, rfl⟩ := exists_mem_boundOf none hname
  obtain ⟨value', hvalue, hget', -⟩ := hr.value_of_mem hvalues hmem
  rw [hnone, variableValue_none, Except.ok.injEq] at hvalue
  rw [hget, Option.some.injEq] at hget'
  rw [hget', ← hvalue, isAbsent_absentValue]

/-- A match leaves a variable with a value that can be written. -/
theorem leaves (hfound : r.pattern.whole.matchWhole path = some found) (hvalues : r.values found = .ok values)
    (hwritable : r.IsWritable found (r.mergeParams values .empty)) {v : Variable} {c : Text}
    (hmem : (v, c) ∈ boundOf none r.pattern.tokens.tokens) :
    Leaves r.delimiter (r.defaults.putAll (r.mergeParams values .empty)) (takenTexts r.pattern.tokens.tokens found)
      v c := by
  obtain ⟨t, -, hσ⟩ := hr.exists_composes hfound
  obtain ⟨value, hvalue, -, -, hget⟩ := hr.value_of_mem hvalues hmem
  have hparam : paramValue (r.defaults.putAll (r.mergeParams values .empty)) v.name = r.mergedValue v.name value := by
    rw [paramValue, hget, Option.getD_some]
  refine ⟨⟨_, hget, ?_⟩, fun hv hne => ?_, fun raw children hv hraw hsolid hne => ?_⟩
  · by_cases husual : r.IsUsual v c
    · have hmerged : r.mergedValue v.name value = value := by
        rw [mergedValue, husual.default, Option.getD_none, ite_self]
      rw [hmerged]
      exact hr.isCoded_of_isUsual hmem husual hvalue
    · exact hwritable.coded _ hmem husual _ hget
  · have hempty : ((takenTexts r.pattern.tokens.tokens found v.name).getD []).isEmpty = false := by simpa using hne
    rw [variableValue, hv] at hvalue
    simp only [hempty, Bool.false_eq_true, if_false, Except.ok.injEq] at hvalue
    rw [hparam, ← hvalue]
    rfl
  · obtain ⟨name, repeated⟩ := v
    obtain rfl : repeated = some raw := hv
    obtain ⟨children', items, hraw', hvalue', -, hsome⟩ :=
      hr.exists_items hsolid.delimiter hmem (takenTexts r.pattern.tokens.tokens found name)
    rw [hvalue', Except.ok.injEq] at hvalue
    rw [hraw, Except.ok.injEq] at hraw'
    obtain rfl : children = children' := congrArg Tokenized.tokens hraw'
    have hrun : (takenTexts r.pattern.tokens.tokens found name).getD [] ∈ KStar.kstar (wordsBy takenBy children) := by
      cases hw : takenTexts r.pattern.tokens.tokens found name with
      | none => exact Language.nil_mem_kstar _
      | some w =>
        obtain ⟨children', hraw', hword⟩ := hσ.isTaken hr.faithful hmem hw
        rw [hraw, Except.ok.injEq] at hraw'
        obtain rfl : children = children' := congrArg Tokenized.tokens hraw'
        exact hword
    obtain ⟨item, items, rfl⟩ := List.exists_cons_of_ne_nil (hsome name hsolid.taken hrun hne)
    rw [hparam, ← hvalue]
    rfl

/-- A match in which the variables took what was written for them gives the same parameters again. -/
theorem get?_mergeParams_again (hvalues : r.values found = .ok values)
    (hreread : r.IsReread found (r.mergeParams values .empty)) {found' : Regex.Cursor} {values' : Mapping Value}
    (hvalues' : r.values found' = .ok values') {τ : Text → Option Text}
    (hwritten : ∀ b ∈ boundOf none r.pattern.tokens.tokens, IsWrittenAs r.delimiter
      (r.defaults.putAll (r.mergeParams values .empty)) (r.Misses found) b.1 (τ b.1.name))
    (hsame : ∀ name ∈ namesOf r.pattern.tokens.tokens,
      (takenTexts r.pattern.tokens.tokens found' name).getD [] = (τ name).getD []) (name : Text) :
    (r.mergeParams values' .empty).get? name = (r.mergeParams values .empty).get? name := by
  by_cases hname : name ∈ namesOf r.pattern.tokens.tokens
  · obtain ⟨⟨v, c⟩, hmem, rfl⟩ := exists_mem_boundOf none hname
    obtain ⟨value, hvalue, hget, hparam, hput⟩ := hr.value_of_mem hvalues hmem
    obtain ⟨value', hvalue', -, hparam', -⟩ := hr.value_of_mem hvalues' hmem
    rw [variableValue_congr _ _ (hsame _ hname)] at hvalue'
    rw [hparam, hparam', Option.some.injEq]
    rcases hwritten _ hmem with ⟨hnone, hmissing⟩ | ⟨given, u, hgiven, hu, hfor⟩
    · -- the variable was left out, and is missing in both
      rw [hnone, variableValue_none, Except.ok.injEq] at hvalue'
      rw [← hvalue', eq_absentValue hvalue (hmissing values value hvalues hget)]
    · have hback : r.ReadsBack (r.defaults.putAll (r.mergeParams values .empty)) v := by
        by_cases hcounts : v.repeated.isSome ∨ (r.defaults.get? v.name).isSome
        · exact hreread.values _ hmem hcounts
        · obtain ⟨hrepeated, hdefault⟩ := not_or.mp hcounts
          rw [Option.not_isSome_iff_eq_none] at hrepeated hdefault
          refine readsBack_of_text hrepeated fun x hx => ?_
          rw [hput, Option.some.injEq, mergedValue, hdefault, Option.getD_none, ite_self] at hx
          rw [← hx]
          rw [variableValue, hrepeated, Except.ok.injEq] at hvalue
          rw [← hvalue]
          split
          · exact Or.inl rfl
          · next hempty => exact Or.inr ⟨_, Text.percentDecode_ne_nil (by simpa using hempty), rfl⟩
      obtain ⟨again, hagain, hmerged⟩ := hback given u hgiven hfor
      have hu' : τ v.name = some u := hu
      rw [hu', hagain, Except.ok.injEq] at hvalue'
      rw [← hvalue', hmerged, ← Option.some.inj (hput.symm.trans hgiven)]
  · -- a name that is not that of a path variable has its default
    have hnone {found : Regex.Cursor} {values : Mapping Value} (h : r.values found = .ok values) :
        values.get? name = none := by
      rw [← Option.not_isSome_iff_eq_none, isSome_get?_values h, hr.assigned.vars_eq, map_name_varsOf]
      exact hname
    have hempty : (Mapping.empty : Mapping Value).keys.Nodup := List.nodup_nil
    rw [get?_mergeParams r (nodup_keys_values hvalues') hempty, get?_mergeParams r (nodup_keys_values hvalues) hempty,
      hnone hvalues, hnone hvalues']

end Found

end IsRelinkable

/-- The parameters of a route with a literal and a run can be linked again. -/
theorem isRelinkable_literalRun {r : Route} (hr : r.IsMade) (hdelimiter : r.delimiter = ['/'])
    {literal name capture : Text} (h : IsRunPattern literal name capture)
    (htokens : r.pattern.tokens.tokens = literalRun literal name capture) (hkeys : r.defaults.keys.Nodup) :
    r.IsRelinkable := by
  refine ⟨hr, ?_, htokens ▸ h.spliceable, Or.inl hdelimiter, hkeys⟩
  rw [htokens, capturesOf_literalRun]
  exact List.forall_mem_singleton.mpr h.plain

section LiteralRun

variable {r : Route} {literal name capture : Text}
  (htokens : r.pattern.tokens.tokens = literalRun literal name capture) (found : Regex.Cursor) {params : Mapping Value}

include htokens

/-- The items of a run are written where the capture takes them. -/
theorem isWritable_literalRun (h : IsRunPattern literal name capture)
    (hitems : ∀ value, (r.defaults.putAll params).get? name = some value →
    ∀ item ∈ value.items, item.isNull = false ∧ encodeValue item ∈ takenBy capture) : r.IsWritable found params := by
  refine ⟨?_, ?_, ?_⟩
  · rw [htokens, boundOf_literalRun, List.forall_mem_singleton]
    intro _ value hget children hchildren item hitem
    rw [h.tokenize_round, Except.ok.injEq] at hchildren
    obtain rfl : roundTokens name capture = children := congrArg Tokenized.tokens hchildren
    simpa [roundTokens, Accepts] using hitems value hget item hitem
  · rintro ⟨other, c, hmem, -⟩
    simp [htokens, literalRun] at hmem
  · rw [htokens]
    have hgroup : IsRewritable r.delimiter (r.defaults.putAll params)
        (takenTexts (literalRun literal name capture) found) .star (roundTokens name capture) :=
      ⟨Suffix.noConfusion, Suffix.noConfusion⟩
    simpa [literalRun, OuterAll] using hgroup

theorem isReread_literalRun
    (hback : r.ReadsBack (r.defaults.putAll params) ⟨name, some (written (roundTokens name capture))⟩) :
    r.IsReread found params := by
  refine ⟨?_, ?_⟩
  · rw [htokens]
    simp [literalRun, OuterAll, IsKept]
  · rw [htokens, boundOf_literalRun]
    exact List.forall_mem_singleton.mpr fun _ => hback

end LiteralRun

end Route

namespace Branch

/-- A match of a route without others below it gives the values of what it captured, and defaults. -/
theorem exists_values_of_matchPath {r : Route} {path : Text} {m : Matched}
    (h : ((node r []).matchPath path .empty .empty).outcome = .ok (some m)) :
    ∃ found values, r.pattern.whole.matchWhole path = some found ∧ r.values found = .ok values ∧
      m = ⟨[], r, r.mergeParams values .empty⟩ := by
  obtain ⟨p, hp, found, hfound, hmatched⟩ := place_of_matchPath h
  obtain rfl : p = ⟨[], node r []⟩ := by simpa [postOrder, placesAmong] using hp
  have hroute : (Place.mk [] (node r [])).route = r := rfl
  rw [hroute] at hfound hmatched
  obtain ⟨values, hvalues, rfl⟩ := Selection.matched_eq_ok hmatched
  refine ⟨found, values, hfound, hvalues, ?_⟩
  rw [queryParams_leaf]

end Branch

end Routing
