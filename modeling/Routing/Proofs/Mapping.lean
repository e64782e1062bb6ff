import Mathlib.Data.List.Induction
import Mathlib.Data.List.Nodup
import Routing.Mapping

/-!
# Mappings from new names

Setting names one after the other that have no value yet gives the list of the settings (`foldl_eq_of_new`), whatever
is done to names that have one. So a mapping without a name twice is the mapping of its entries (`putAll_empty`). Names
that were set several times are in the order in which they first were (`keys_put_of_eraseDups`).

Of two mappings that are put together the one that was put last wins (`get?_putAll`), or the one that was there where
only new names are set (`get?_putAllNew`).
-/

namespace Routing

/-! ### First occurrences -/

theorem eraseDups_append_singleton (names : List Text) (name : Text) :
    (names ++ [name]).eraseDups = if name ∈ names then names.eraseDups else names.eraseDups ++ [name] := by
  rw [List.eraseDups_append]
  by_cases h : name ∈ names
  · simp [h, List.removeAll]
  · simp [h, List.removeAll]
    rfl

theorem nodup_eraseDups (names : List Text) : names.eraseDups.Nodup := by
  induction names using List.reverseRecOn with
  | nil => exact List.nodup_nil
  | append_singleton names name ih =>
    rw [eraseDups_append_singleton]
    split
    · exact ih
    · next hnew =>
      rw [← List.mem_eraseDups] at hnew
      exact List.nodup_append_comm.mp (List.nodup_cons.mpr ⟨hnew, ih⟩)

namespace Mapping

/-! ### Names and their values -/

variable {α : Type}

theorem find_eq_none_iff {name : Text} {entries : List (Text × α)} :
    find name entries = none ↔ name ∉ entries.map Prod.fst := by
  induction entries with
  | nil => simp [find]
  | cons e rest ih =>
    obtain ⟨k, v⟩ := e
    by_cases hk : k = name
    · simp [find, hk]
    · simp [find, hk, ih, Ne.symm hk]

theorem insert_of_new {name : Text} {entries : List (Text × α)} (h : name ∉ entries.map Prod.fst) (value : α) :
    insert name value entries = entries ++ [(name, value)] := by
  induction entries with
  | nil => rfl
  | cons e rest ih =>
    obtain ⟨k, v⟩ := e
    simp only [List.map_cons, List.mem_cons, not_or] at h
    rw [insert, if_neg (Ne.symm h.1), ih h.2]
    rfl

/-- Setting the name of the last entry again replaces its value. -/
theorem insert_of_last {name : Text} {before : List (Text × α)} (h : name ∉ before.map Prod.fst) (old value : α) :
    insert name value (before ++ [(name, old)]) = before ++ [(name, value)] := by
  induction before with
  | nil => simp [insert]
  | cons e rest ih =>
    obtain ⟨k, v⟩ := e
    simp only [List.map_cons, List.mem_cons, not_or] at h
    rw [List.cons_append, insert, if_neg (Ne.symm h.1), ih h.2]
    rfl

theorem get?_of_last {name : Text} {before : List (Text × α)} (h : name ∉ before.map Prod.fst) (value : α) :
    get? ⟨before ++ [(name, value)]⟩ name = some value := by
  rw [get?, ← insert_of_new h, find_insert, if_pos rfl]

/-- Steps that set a name that is new add their settings in order. -/
theorem foldl_eq_of_new {step : Mapping α → Text × α → Mapping α}
    (hstep : ∀ m e, e.1 ∉ m.keys → step m e = m.put e.1 e.2) {before entries : List (Text × α)}
    (h : ((before ++ entries).map Prod.fst).Nodup) : entries.foldl step ⟨before⟩ = ⟨before ++ entries⟩ := by
  induction entries generalizing before with
  | nil => rw [List.foldl_nil, List.append_nil]
  | cons e rest ih =>
    have hnew : e.1 ∉ before.map Prod.fst := by
      rw [List.map_append, List.map_cons, List.nodup_append] at h
      intro hmem
      exact h.2.2 _ hmem _ (List.mem_cons_self) rfl
    rw [List.append_cons] at h ⊢
    rw [List.foldl_cons, hstep _ _ hnew, put, insert_of_new hnew, ih h]

theorem putAll_empty {m : Mapping α} (h : m.keys.Nodup) : empty.putAll m = m :=
  @foldl_eq_of_new _ _ (fun _ _ _ => rfl) [] _ h

theorem get?_putAll_singleton (m : Mapping α) (name : Text) (value : α) :
    (m.putAll ⟨[(name, value)]⟩).get? name = some value := by
  show (m.put name value).get? name = some value
  rw [get?_put, if_pos rfl]

theorem ofList_eq {entries : List (Text × α)} (h : (entries.map Prod.fst).Nodup) : ofList entries = ⟨entries⟩ :=
  putAll_empty h

/-- A mapping without a name twice has the value of each of its entries. -/
theorem get?_of_mem {name : Text} {value : α} {entries : List (Text × α)} (hnodup : (entries.map Prod.fst).Nodup)
    (h : (name, value) ∈ entries) : get? ⟨entries⟩ name = some value := by
  rw [get?]
  induction entries with
  | nil => cases h
  | cons e rest ih =>
    obtain ⟨k, v⟩ := e
    rw [List.map_cons, List.nodup_cons] at hnodup
    rcases List.mem_cons.mp h with heq | h
    · obtain ⟨rfl, rfl⟩ := Prod.mk.inj heq
      simp [find]
    · have hne : k ≠ name := by
        rintro rfl
        exact hnodup.1 (List.mem_map.mpr ⟨_, h, rfl⟩)
      rw [find, if_neg hne]
      exact ih hnodup.2 h

theorem get?_map {names : List Text} (f : Text → α) (name : Text) :
    get? ⟨names.map fun n => (n, f n)⟩ name = if name ∈ names then some (f name) else none := by
  induction names with
  | nil => rfl
  | cons n names ih =>
    rw [get?] at ih
    by_cases hn : n = name
    · simp [get?, find, hn]
    · simp [get?, find, hn, ih, Ne.symm hn]

theorem get?_mk_cons (k : Text) (v : α) (rest : List (Text × α)) (name : Text) :
    get? ⟨(k, v) :: rest⟩ name = if k = name then some v else get? ⟨rest⟩ name := rfl

/-! ### Mappings with other values -/

section Map

variable {β : Type} (f : α → β) (m : Mapping α) (name : Text)

theorem get?_map_value : (m.map f).get? name = (m.get? name).map f := by
  obtain ⟨entries⟩ := m
  induction entries with
  | nil => rfl
  | cons e rest ih =>
    rw [get?_mk_cons, map, List.map_cons, get?_mk_cons]
    split
    · rfl
    · exact ih

theorem map_put (value : α) : (m.put name value).map f = (m.map f).put name (f value) := by
  obtain ⟨entries⟩ := m
  simp only [put, map, mk.injEq]
  induction entries with
  | nil => rfl
  | cons e rest ih =>
    rw [insert, List.map_cons, insert]
    split
    · rfl
    · rw [List.map_cons, ih]

end Map

/-! ### Mappings put together -/

theorem get?_putNew (m : Mapping α) (name other : Text) (value : α) :
    (m.putNew name value).get? other = (m.get? other).or (if name = other then some value else none) := by
  rw [putNew]
  by_cases hname : name = other
  · subst hname
    split
    · next hcontains =>
      obtain ⟨old, hold⟩ := Option.isSome_iff_exists.mp hcontains
      rw [hold, Option.some_or]
    · next hcontains =>
      rw [get?_put, Option.not_isSome_iff_eq_none.mp hcontains, Option.none_or]
  · rw [if_neg hname, Option.or_none]
    split
    · rfl
    · rw [get?_put, if_neg hname]

/-- The names that are there keep their values. -/
theorem get?_putAllNew (m other : Mapping α) (name : Text) :
    (m.putAllNew other).get? name = (m.get? name).or (other.get? name) := by
  obtain ⟨entries⟩ := other
  rw [putAllNew]
  induction entries generalizing m with
  | nil => simp [get?, find]
  | cons e rest ih =>
    rw [List.foldl_cons, ih, get?_putNew, get?_mk_cons, Option.or_assoc]
    split <;> simp

/-- The values that are put last win. -/
theorem get?_putAll (m : Mapping α) {other : Mapping α} (h : other.keys.Nodup) (name : Text) :
    (m.putAll other).get? name = (other.get? name).or (m.get? name) := by
  obtain ⟨entries⟩ := other
  rw [putAll]
  induction entries generalizing m with
  | nil => rfl
  | cons e rest ih =>
    rw [keys, List.map_cons, List.nodup_cons] at h
    rw [List.foldl_cons, ih _ h.2, get?_put, get?_mk_cons]
    by_cases hname : e.1 = name
    · have hrest : get? ⟨rest⟩ name = none := find_eq_none_iff.mpr (hname ▸ h.1)
      rw [if_pos hname, if_pos hname, hrest]
      rfl
    · rw [if_neg hname, if_neg hname]

section Nodup

variable {m : Mapping α} (h : m.keys.Nodup)

include h

theorem nodup_keys_put (name : Text) (value : α) : (m.put name value).keys.Nodup := by
  rw [keys_put]
  split
  · exact h
  · next hnew => exact List.nodup_append_comm.mp (List.nodup_cons.mpr ⟨hnew, h⟩)

theorem nodup_keys_putNew (name : Text) (value : α) : (m.putNew name value).keys.Nodup := by
  unfold putNew
  split
  · exact h
  · exact nodup_keys_put h name value

theorem nodup_keys_putAll (other : Mapping α) : (m.putAll other).keys.Nodup :=
  List.foldlRecOn (motive := fun m : Mapping α => m.keys.Nodup) other.entries _ h
    fun _ hm e _ => nodup_keys_put hm e.1 e.2

theorem nodup_keys_putAllNew (other : Mapping α) : (m.putAllNew other).keys.Nodup :=
  List.foldlRecOn (motive := fun m : Mapping α => m.keys.Nodup) other.entries _ h
    fun _ hm e _ => nodup_keys_putNew hm e.1 e.2

end Nodup

/-- The names that were set step by step are in the order in which they were first set. -/
theorem keys_put_of_eraseDups {m : Mapping α} {names : List Text} (h : m.keys = names.eraseDups) (name : Text)
    (value : α) : (m.put name value).keys = (names ++ [name]).eraseDups := by
  rw [keys_put, h, eraseDups_append_singleton]
  simp only [List.mem_eraseDups]

theorem nodup_keys_ofList (entries : List (Text × α)) : (ofList entries).keys.Nodup :=
  @nodup_keys_putAll _ empty List.nodup_nil ⟨entries⟩

/-- Of the settings of a name the last one counts. -/
theorem get?_ofList (entries : List (Text × α)) (name : Text) :
    (ofList entries).get? name = find name entries.reverse := by
  induction entries using List.reverseRecOn with
  | nil => rfl
  | append_singleton entries e ih =>
    have hput : ofList (entries ++ [e]) = (ofList entries).put e.1 e.2 := by simp [ofList, putAll]
    rw [hput, get?_put, ih, List.reverse_concat]
    rfl

theorem mem_of_find {name : Text} {value : α} {entries : List (Text × α)} (h : find name entries = some value) :
    (name, value) ∈ entries := by
  induction entries with
  | nil => cases h
  | cons e rest ih =>
    obtain ⟨k, v⟩ := e
    rw [find] at h
    split at h
    · next hk => rw [hk, Option.some.inj h]; exact List.mem_cons_self
    · exact List.mem_cons_of_mem _ (ih h)

/-- The value of a name among settings whose values depend on the name alone. -/
theorem find_filterMap (names : List Text) (f : Text → Option α) (name : Text) :
    find name (names.filterMap fun n => (f n).map (n, ·)) = if name ∈ names then f name else none := by
  induction names with
  | nil => rfl
  | cons n names ih =>
    by_cases hname : n = name
    · subst hname
      cases hf : f n with
      | none => simpa [hf] using ih
      | some v => simp [hf, find]
    · cases hf : f n <;> simp [hf, find, hname, Ne.symm hname, ih]

theorem get?_ofList_filterMap (names : List Text) (f : Text → Option α) (name : Text) :
    (ofList (names.filterMap fun n => (f n).map (n, ·))).get? name = if name ∈ names then f name else none := by
  rw [get?_ofList, ← List.filterMap_reverse, find_filterMap]
  simp only [List.mem_reverse]

end Mapping

end Routing
