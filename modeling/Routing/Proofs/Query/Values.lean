import Mathlib
import Routing.Proofs.Query

/-!
# The values of a query

A key of a query stands for a name: for the one before its brackets, or for itself (`nameOf_of_brackets`,
`nameOf_of_plain`). What a query gives for a name depends on the pairs of that name alone (`valueOf`). One more pair
changes the value of its name, and of no other one (`IsCollected.addPair`), so all pairs together give each name its
texts in order (`parse_collects`).
-/

namespace Routing

/-- Whether a value is made of some texts: it is the only one of them, or the list of all. -/
inductive Value.Flattens : Value → List Text → Prop
  | text (t : Text) : Flattens (.str t) [t]
  | list (texts : List Text) : Flattens (.list (texts.map .str)) texts

/-- Whether a value is a list. -/
def Value.IsList (v : Value) : Prop := ∃ items, v = .list items

theorem Value.Flattens.eq_list {v : Value} {texts : List Text} (h : v.Flattens texts) (hlist : v.IsList) :
    v = .list (texts.map .str) := by
  cases h with
  | text t =>
    obtain ⟨items, hitems⟩ := hlist
    cases hitems
  | list => rfl

theorem Value.Flattens.eq_text {v : Value} {texts : List Text} (h : v.Flattens texts) (hlist : ¬ v.IsList) :
    ∃ t, texts = [t] ∧ v = .str t := by
  cases h with
  | text t => exact ⟨t, rfl, rfl⟩
  | list => exact absurd ⟨_, rfl⟩ hlist

namespace Query

/-! ### Keys and their names -/

/-- The name that a key of a query stands for. -/
def nameOf (key : Text) : Text := (bracketBase key).getD key

theorem nameOf_of_brackets {name key : Text} (h : Brackets name key) : nameOf key = name := by
  rw [nameOf, bracketBase_eq_some_iff.mpr h, Option.getD_some]

theorem nameOf_of_plain {key : Text} (h : ∀ name, ¬ Brackets name key) : nameOf key = key := by
  rw [nameOf, bracketBase_eq_none.mpr h, Option.getD_none]

theorem isSome_bracketBase_iff {key : Text} : (bracketBase key).isSome = true ↔ ∃ name, Brackets name key := by
  simp only [Option.isSome_iff_exists, bracketBase_eq_some_iff]

/-- A pair is added under the name of its key. -/
theorem addPair_eq (m : Mapping Value) (pair : Text × Text) :
    addPair m pair = add m (nameOf pair.1) (bracketBase pair.1).isSome pair.2 := by
  rw [addPair, nameOf]
  cases bracketBase pair.1 <;> rfl

/-! ### The pairs of a name -/

/-- The pairs whose keys stand for a name, in order. -/
def pairsFor (name : Text) (pairs : List (Text × Text)) : List (Text × Text) :=
  pairs.filter fun pair => nameOf pair.1 = name

theorem pairsFor_concat (name : Text) (pairs : List (Text × Text)) (pair : Text × Text) :
    pairsFor name (pairs ++ [pair]) = pairsFor name pairs ++ if nameOf pair.1 = name then [pair] else [] := by
  by_cases h : nameOf pair.1 = name <;> simp [pairsFor, h]

theorem length_pairsFor (name : Text) (pairs : List (Text × Text)) :
    (pairsFor name pairs).length = (pairs.map fun pair => nameOf pair.1).count name := by
  rw [pairsFor, ← List.countP_eq_length_filter, List.count, List.countP_map]
  congr 1
  funext pair
  exact (beq_eq_decide _ _).symm

/-- What the pairs of a name make of it: the text of a single pair without brackets, else the list of all texts. -/
def valueOf : List (Text × Text) → Option Value
  | [] => none
  | [(key, t)] => some (if (bracketBase key).isSome then .list [.str t] else .str t)
  | pairs => some (.list (pairs.map fun pair => .str pair.2))

theorem valueOf_eq_none_iff {pairs : List (Text × Text)} : valueOf pairs = none ↔ pairs = [] := by
  rcases pairs with _ | ⟨first, _ | ⟨second, rest⟩⟩ <;> simp [valueOf]

/-- The value of some pairs is made of their texts. -/
theorem flattens_of_valueOf {pairs : List (Text × Text)} {v : Value} (h : valueOf pairs = some v) :
    v.Flattens (pairs.map Prod.snd) := by
  rcases pairs with _ | ⟨⟨key, t⟩, _ | ⟨second, rest⟩⟩
  · cases h
  · obtain rfl := Option.some.inj h
    split
    · exact .list [t]
    · exact .text t
  · obtain rfl := Option.some.inj h
    have hlist := Value.Flattens.list (((key, t) :: second :: rest).map Prod.snd)
    rwa [List.map_map] at hlist

/-- The value of some pairs is a list if they are several, or a single one with brackets. -/
theorem isList_of_valueOf {pairs : List (Text × Text)} {v : Value} (h : valueOf pairs = some v) :
    v.IsList ↔ 2 ≤ pairs.length ∨ ∃ key t, pairs = [(key, t)] ∧ ∃ name, Brackets name key := by
  rcases pairs with _ | ⟨⟨key, t⟩, _ | ⟨second, rest⟩⟩
  · cases h
  · obtain rfl := Option.some.inj h
    simp only [← isSome_bracketBase_iff]
    by_cases hkey : (bracketBase key).isSome = true <;> simp [hkey, Value.IsList]
  · obtain rfl := Option.some.inj h
    exact iff_of_true ⟨_, rfl⟩ (Or.inl (Nat.le_add_left 2 _))

/-! ### All pairs -/

/-- Whether a mapping holds what some pairs give: their names in the order in which they first occur, each with what its
own pairs make of it. -/
structure IsCollected (pairs : List (Text × Text)) (m : Mapping Value) : Prop where
  keys : m.keys = (pairs.map fun pair => nameOf pair.1).eraseDups
  value : ∀ name, m.get? name = valueOf (pairsFor name pairs)

section IsCollected

variable {pairs : List (Text × Text)} {m : Mapping Value}

/-- One more pair sets its name, to what the pairs of that name now make of it. -/
theorem IsCollected.exists_put (h : IsCollected pairs m) (pair : Text × Text) :
    ∃ v, addPair m pair = m.put (nameOf pair.1) v ∧ valueOf (pairsFor (nameOf pair.1) pairs ++ [pair]) = some v := by
  obtain ⟨key, t⟩ := pair
  have hget := h.value (nameOf key)
  rw [addPair_eq]
  generalize pairsFor (nameOf key) pairs = own at hget ⊢
  -- the cases are those of the value so far: there is none, it is one text or a list of one, or a longer list
  rcases own with _ | ⟨⟨first, s⟩, _ | ⟨second, rest⟩⟩
  · rw [valueOf] at hget
    simp only [add, hget]
    exact ⟨_, rfl, rfl⟩
  · rw [valueOf] at hget
    split at hget <;>
      simp only [add, hget] <;>
      exact ⟨_, rfl, rfl⟩
  · have hlist : m.get? (nameOf key) = some (.list (((first, s) :: second :: rest).map fun pair => .str pair.2)) := hget
    simp only [add, hlist]
    refine ⟨_, rfl, ?_⟩
    simp [valueOf]

/-- One more pair is collected. -/
theorem IsCollected.addPair (h : IsCollected pairs m) (pair : Text × Text) :
    IsCollected (pairs ++ [pair]) (addPair m pair) := by
  obtain ⟨v, hput, hvalue⟩ := h.exists_put pair
  rw [hput]
  refine ⟨?_, fun name => ?_⟩
  · rw [Mapping.keys_put_of_eraseDups h.keys, List.map_append]
    rfl
  · rw [Mapping.get?_put, pairsFor_concat]
    split
    · next hname => rw [← hname, hvalue]
    · rw [List.append_nil, h.value]

end IsCollected

theorem isCollected_foldl (pairs : List (Text × Text)) : IsCollected pairs (pairs.foldl addPair .empty) := by
  induction pairs using List.reverseRecOn with
  | nil => exact ⟨rfl, fun _ => rfl⟩
  | append_singleton pairs pair ih =>
    rw [List.foldl_append]
    exact ih.addPair pair

theorem isCollected_parse (query : Text) : IsCollected (pairs query) (parse query) := isCollected_foldl _

/-- A query gives the names of its keys in the order in which they first occur. The value of a name is made of all its
texts in order, and is a list if there are two or more of them, or if the only one has a key with brackets. -/
theorem parse_collects (query : Text) :
    (∀ key name, Brackets name key → nameOf key = name) ∧
      (∀ key, (∀ name, ¬ Brackets name key) → nameOf key = key) ∧
      (parse query).keys = ((pairs query).map fun pair => nameOf pair.1).eraseDups ∧
      ∀ name ∈ (parse query).keys, ∃ v, (parse query).get? name = some v ∧
        v.Flattens ((pairsFor name (pairs query)).map Prod.snd) ∧
        (v.IsList ↔ 2 ≤ (pairsFor name (pairs query)).length ∨
          ∃ key t, pairsFor name (pairs query) = [(key, t)] ∧ ∃ base, Brackets base key) := by
  have hcollected := isCollected_parse query
  refine ⟨fun _ _ => nameOf_of_brackets, fun _ => nameOf_of_plain, hcollected.keys, fun name hname => ?_⟩
  cases hvalue : (parse query).get? name with
  | none => exact absurd hname (Mapping.find_eq_none_iff.mp hvalue)
  | some v =>
    have hpairs := (hcollected.value name).symm.trans hvalue
    exact ⟨v, rfl, flattens_of_valueOf hpairs, isList_of_valueOf hpairs⟩

/-- A name with an empty text and one under brackets, a name with one text under brackets, and a name that is nothing
but brackets. -/
theorem empty_and_bracketed_texts_are_kept :
    ∃ query v w x, query = "?a=&k%5B7%5D=&a[0]=y&%5B%5D=z".toList ∧
      (parse query).keys = [['a'], ['k'], ['[', ']']] ∧
      ((parse query).get? ['a'] = some v ∧ v.Flattens [[], ['y']] ∧ v.IsList) ∧
      ((parse query).get? ['k'] = some w ∧ w.Flattens [[]] ∧ w.IsList) ∧
      (parse query).get? ['[', ']'] = some x ∧ x.Flattens [['z']] ∧ ¬ x.IsList := by
  obtain ⟨-, -, hnames, hvalues⟩ := parse_collects "?a=&k%5B7%5D=&a[0]=y&%5B%5D=z".toList
  have hkeys : (parse "?a=&k%5B7%5D=&a[0]=y&%5B%5D=z".toList).keys = [['a'], ['k'], ['[', ']']] :=
    hnames.trans (by cbv)
  have ha : pairsFor ['a'] (pairs "?a=&k%5B7%5D=&a[0]=y&%5B%5D=z".toList) = [(['a'], []), ("a[0]".toList, ['y'])] := by
    cbv
  have hk : pairsFor ['k'] (pairs "?a=&k%5B7%5D=&a[0]=y&%5B%5D=z".toList) = [("k[7]".toList, [])] := by cbv
  have hbare : pairsFor ['[', ']'] (pairs "?a=&k%5B7%5D=&a[0]=y&%5B%5D=z".toList) = [(['[', ']'], ['z'])] := by cbv
  obtain ⟨v, hv, hvtexts, hvlist⟩ := hvalues ['a'] (by rw [hkeys]; decide)
  obtain ⟨w, hw, hwtexts, hwlist⟩ := hvalues ['k'] (by rw [hkeys]; decide)
  obtain ⟨x, hx, hxtexts, hxlist⟩ := hvalues ['[', ']'] (by rw [hkeys]; decide)
  rw [ha] at hvtexts hvlist
  rw [hk] at hwtexts hwlist
  rw [hbare] at hxtexts hxlist
  refine ⟨_, v, w, x, rfl, hkeys, ⟨hv, hvtexts, hvlist.mpr (Or.inl (by decide))⟩, ⟨hw, hwtexts, hwlist.mpr ?_⟩, hx,
    hxtexts, fun hlist => ?_⟩
  · exact Or.inr ⟨_, _, rfl, isSome_bracketBase_iff.mp (by cbv)⟩
  · rcases hxlist.mp hlist with htwo | ⟨key, t, hpair, hbrackets⟩
    · exact absurd htwo (by decide)
    · obtain ⟨rfl, -⟩ := Prod.mk.inj (List.cons.inj hpair).1
      exact hbrackets.elim (bracketBase_eq_none.mp (by cbv))

end Query

end Routing
