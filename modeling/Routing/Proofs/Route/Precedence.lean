import Routing.Proofs.Mapping
import Routing.Proofs.Route.Values

/-!
# Which value counts

A name may have a value from the path, from the query and from the defaults of a route. `get?_mergeParams` says which
of them a route takes: that of the path unless it is absent there, that of the query, that of the defaults, and the
absent value of the path in the end. The path has values for the path variables alone (`isSome_get?_values`), and an
absent one is null, or the empty list if the variable is repeated (`absent_of_values`).
-/

namespace Routing

open Pattern

namespace Route

/-- The value of a path variable that is absent from the path. -/
def absentValue (v : Variable) : Value := if v.repeated.isSome then .list [] else .null

/-- What a match puts over the parameters that it has from elsewhere. -/
theorem get?_foldl_values {entries : List (Text × Value)} (h : (entries.map Prod.fst).Nodup) (params : Mapping Value)
    (name : Text) :
    (entries.foldl (fun params (name, value) => if isAbsent value && params.contains name then params
      else params.put name value) params).get? name =
      (((Mapping.mk entries).get? name).filter (!isAbsent ·)).or
        ((params.get? name).or ((Mapping.mk entries).get? name)) := by
  induction entries generalizing params with
  | nil => simp [Mapping.get?, Mapping.find]
  | cons e rest ih =>
    obtain ⟨k, value⟩ := e
    rw [List.map_cons, List.nodup_cons] at h
    rw [List.foldl_cons, ih h.2, Mapping.get?_mk_cons]
    by_cases hk : k = name
    · subst hk
      have hrest : (Mapping.mk rest).get? k = none := Mapping.find_eq_none_iff.mpr h.1
      rw [hrest, if_pos rfl, Option.filter_none, Option.none_or, Option.or_none, Option.filter_some]
      cases habsent : isAbsent value with
      | false => simp [habsent, Mapping.get?_put]
      | true => cases hparams : params.get? k <;> simp [habsent, Mapping.contains, hparams, Mapping.get?_put]
    · have hkept : (if isAbsent value && params.contains k then params else params.put k value).get? name =
          params.get? name := by
        split
        · rfl
        · rw [Mapping.get?_put, if_neg hk]
      rw [hkept, if_neg hk]

/-- The first of these that there is: a value of the path that is not absent, a value of the query, a default, the
absent value of the path. -/
theorem get?_mergeParams (r : Route) {values query : Mapping Value} (hvalues : values.keys.Nodup)
    (hquery : query.keys.Nodup) (name : Text) :
    (r.mergeParams values query).get? name =
      ((values.get? name).filter (!isAbsent ·)).or
        ((query.get? name).or ((r.defaults.get? name).or (values.get? name))) := by
  rw [mergeParams, get?_foldl_values hvalues, Mapping.get?_putAll _ hquery, Option.or_assoc]

/-- A query variable is picked where the route declares it and it has a value. -/
theorem get?_pickQuery (r : Route) (params : Mapping Value) (name : Text) :
    (r.pickQuery params).get? name =
      if name ∈ r.pattern.queryNames then (params.get? name).filter (!·.isNull) else none := by
  have hpicked : r.pickQuery params =
      .ofList (r.pattern.queryNames.filterMap fun n => ((params.get? n).filter (!·.isNull)).map (n, ·)) := by
    rw [pickQuery]
    congr 1
    apply List.filterMap_congr
    intro n _
    cases params.get? n with
    | none => rfl
    | some v => cases hnull : v.isNull <;> simp [hnull]
  rw [hpicked, Mapping.get?_ofList_filterMap]

/-- Nothing is picked from nothing. -/
theorem pickQuery_empty (r : Route) : r.pickQuery .empty = .empty := by
  simp only [pickQuery, Mapping.get?_empty, List.filterMap_none]
  rfl

/-- What a match without a query gives for a path variable. -/
theorem get?_mergeParams_empty (r : Route) {values : Mapping Value} (hvalues : values.keys.Nodup) {name : Text}
    {value : Value} (hget : values.get? name = some value) : (r.mergeParams values .empty).get? name =
      some (if isAbsent value then (r.defaults.get? name).getD value else value) := by
  have hnone : (Mapping.empty : Mapping Value).keys.Nodup := List.nodup_nil
  rw [get?_mergeParams r hvalues hnone, hget, Mapping.get?_empty, Option.none_or, Option.filter_some]
  cases isAbsent value with
  | false => rfl
  | true => cases r.defaults.get? name <;> rfl

theorem nodup_keys_mergeParams {r : Route} (hdefaults : r.defaults.keys.Nodup) (values query : Mapping Value) :
    (r.mergeParams values query).keys.Nodup := by
  refine List.foldlRecOn (motive := fun m : Mapping Value => m.keys.Nodup) _ _ (Mapping.nodup_keys_putAll hdefaults query)
    fun m hm e _ => ?_
  obtain ⟨name, value⟩ := e
  show (if isAbsent value && m.contains name then m else m.put name value).keys.Nodup
  split
  · exact hm
  · exact Mapping.nodup_keys_put hm _ _

/-- What a match gives for a path variable is there when a path is written. -/
theorem get?_putAll_params (r : Route) (hdefaults : r.defaults.keys.Nodup) {values : Mapping Value}
    (hvalues : values.keys.Nodup) {name : Text} {value : Value} (hget : values.get? name = some value) :
    (r.defaults.putAll (r.mergeParams values .empty)).get? name = (r.mergeParams values .empty).get? name := by
  rw [Mapping.get?_putAll _ (nodup_keys_mergeParams hdefaults values .empty), r.get?_mergeParams_empty hvalues hget,
    Option.some_or]

theorem isAbsent_absentValue (v : Variable) : isAbsent (absentValue v) = true := by
  cases hv : v.repeated <;> simp [absentValue, hv, isAbsent]

/-- A variable that took no part in the match has its absent value. -/
theorem variableValue_none (p : RoutePattern) (v : Variable) : variableValue p v none = .ok (absentValue v) := by
  cases hv : v.repeated <;> simp [variableValue, absentValue, hv]

/-- Only a repeated variable has a list. -/
theorem variableValue_cases {p : RoutePattern} {v : Variable} {captured : Option Text} {value : Value}
    (h : variableValue p v captured = .ok value) :
    v.repeated = none ∧ (value = .null ∨ ∃ t, value = .str t) ∨
      v.repeated.isSome ∧ ∃ items, value = .list items := by
  rw [variableValue] at h
  cases hv : v.repeated with
  | none =>
    simp only [hv, Except.ok.injEq] at h
    refine Or.inl ⟨rfl, ?_⟩
    rw [← h]
    split
    · exact Or.inl rfl
    · exact Or.inr ⟨_, rfl⟩
  | some raw =>
    simp only [hv] at h
    refine Or.inr ⟨rfl, ?_⟩
    split at h
    · exact ⟨[], (Except.ok.inj h).symm⟩
    · cases hsplitter : p.splitters.lookup v.name with
      | none => simp [hsplitter] at h
      | some splitter =>
        cases hrun : splitRun splitter (captured.getD []) with
        | error e => simp [hsplitter, hrun, Except.map] at h
        | ok items =>
          simp only [hsplitter, hrun, Except.map, Except.ok.injEq] at h
          exact ⟨items, h.symm⟩

theorem eq_absentValue {p : RoutePattern} {v : Variable} {captured : Option Text} {value : Value}
    (h : variableValue p v captured = .ok value) (habsent : isAbsent value = true) : value = absentValue v := by
  rcases variableValue_cases h with ⟨hv, rfl | ⟨t, rfl⟩⟩ | ⟨hv, items, rfl⟩
  · simp [absentValue, hv]
  · cases habsent
  · cases items with
    | nil => simp [absentValue, hv]
    | cons => cases habsent

/-- Every value is that of a variable. -/
theorem variable_of_valuesFrom {p : RoutePattern} {matched : Regex.Cursor} {index : Nat} {vars : List Variable}
    {entries : List (Text × Value)} (h : valuesFrom p matched index vars = .ok entries) :
    ∀ e ∈ entries, ∃ v ∈ vars, v.name = e.1 ∧ ∃ captured, variableValue p v captured = .ok e.2 := by
  induction vars generalizing index entries with
  | nil =>
    rw [valuesFrom, Except.ok.injEq] at h
    simp [← h]
  | cons v vars ih =>
    rw [valuesFrom] at h
    split at h
    · cases h
    · obtain ⟨value, hvalue, h⟩ := bind_eq_ok.mp h
      obtain ⟨others, hothers, h⟩ := bind_eq_ok.mp h
      rw [← Except.ok.inj h, List.forall_mem_cons]
      refine ⟨⟨v, List.mem_cons_self, rfl, _, hvalue⟩, fun e he => ?_⟩
      obtain ⟨w, hw, hname⟩ := ih hothers e he
      exact ⟨w, List.mem_cons_of_mem _ hw, hname⟩

section Values

variable {r : Route} {found : Regex.Cursor} {values : Mapping Value} (h : r.values found = .ok values)

include h

theorem exists_valuesFrom :
    ∃ entries, valuesFrom r.pattern found 1 r.pattern.rule.vars = .ok entries ∧ values = .ofList entries := by
  rw [Route.values] at h
  cases hfrom : valuesFrom r.pattern found 1 r.pattern.rule.vars with
  | error e => rw [hfrom] at h; cases h
  | ok entries => rw [hfrom] at h; exact ⟨entries, rfl, (Except.ok.inj h).symm⟩

theorem nodup_keys_values : values.keys.Nodup := by
  obtain ⟨entries, -, rfl⟩ := exists_valuesFrom h
  exact Mapping.nodup_keys_ofList entries

/-- The names with a value are those of the path variables. -/
theorem isSome_get?_values (name : Text) :
    (values.get? name).isSome ↔ name ∈ r.pattern.rule.vars.map Variable.name := by
  obtain ⟨entries, hfrom, rfl⟩ := exists_valuesFrom h
  rw [← (value_of_valuesFrom hfrom).1, Mapping.get?_ofList, ← Option.not_isNone, Bool.not_eq_true',
    ← Bool.not_eq_true, Option.isNone_iff_eq_none, Mapping.find_eq_none_iff, not_not, List.map_reverse,
    List.mem_reverse]

/-- A value that is absent is the absent value of its variable. -/
theorem absent_of_values {name : Text} {value : Value} (hget : values.get? name = some value)
    (habsent : isAbsent value = true) : ∃ v ∈ r.pattern.rule.vars, v.name = name ∧ value = absentValue v := by
  obtain ⟨entries, hfrom, rfl⟩ := exists_valuesFrom h
  rw [Mapping.get?_ofList] at hget
  obtain ⟨v, hv, hname, captured, hvalue⟩ :=
    variable_of_valuesFrom hfrom _ (List.mem_reverse.mp (Mapping.mem_of_find hget))
  exact ⟨v, hv, hname, eq_absentValue hvalue habsent⟩

end Values

end Route

end Routing
