import Routing.Text

/-!
# Ordered mappings

Parameters, data and contents map names to values, and the order in which names were first set shows in every
listing. A mapping is the list of its entries; setting a name that is there keeps its place.

`get?_put` says what setting does to the view `get?`, `keys_put` what it does to the order.
-/

namespace Routing

/-- Names with their values, in the order in which the names were first set. -/
structure Mapping (α : Type) where
  entries : List (Text × α) := []
  deriving BEq, Repr, Inhabited

namespace Mapping

variable {α β : Type}

/-- The mapping without entries. -/
def empty : Mapping α := ⟨[]⟩

/-- The value of a name in a list of entries. -/
def find (name : Text) : List (Text × α) → Option α
  | [] => none
  | (k, v) :: rest => if k = name then some v else find name rest

/-- The entries with the value of a name replaced, or with the name as the last one. -/
def insert (name : Text) (value : α) : List (Text × α) → List (Text × α)
  | [] => [(name, value)]
  | (k, v) :: rest => if k = name then (k, value) :: rest else (k, v) :: insert name value rest

/-- The value of a name. -/
def get? (m : Mapping α) (name : Text) : Option α := find name m.entries

/-- Whether a name has a value. -/
def contains (m : Mapping α) (name : Text) : Bool := (m.get? name).isSome

/-- The names, in order. -/
def keys (m : Mapping α) : List Text := m.entries.map Prod.fst

/-- The mapping after setting a name. -/
def put (m : Mapping α) (name : Text) (value : α) : Mapping α := ⟨insert name value m.entries⟩

/-- The mapping after setting a name that has no value yet. -/
def putNew (m : Mapping α) (name : Text) (value : α) : Mapping α :=
  if m.contains name then m else m.put name value

/-- The mapping after setting every entry of another one, in order. -/
def putAll (m other : Mapping α) : Mapping α :=
  other.entries.foldl (fun acc (k, v) => acc.put k v) m

/-- The mapping after setting those entries of another one whose names have no value yet. -/
def putAllNew (m other : Mapping α) : Mapping α :=
  other.entries.foldl (fun acc (k, v) => acc.putNew k v) m

/-- The mapping without a name. -/
def erase (m : Mapping α) (name : Text) : Mapping α := ⟨m.entries.filter (·.1 ≠ name)⟩

/-- The mapping that a list of settings builds; a later setting of a name replaces the value of an earlier one. -/
def ofList (entries : List (Text × α)) : Mapping α := putAll empty ⟨entries⟩

/-- The mapping with every value replaced by its image. -/
def map (f : α → β) (m : Mapping α) : Mapping β := ⟨m.entries.map fun (k, v) => (k, f v)⟩

theorem find_insert (entries : List (Text × α)) (name other : Text) (value : α) :
    find other (insert name value entries) = if name = other then some value else find other entries := by
  induction entries with
  | nil => simp [insert, find]
  | cons e rest ih =>
    obtain ⟨k, v⟩ := e
    by_cases hk : k = name
    · by_cases h : name = other <;> simp [insert, find, hk, h]
    · by_cases h : name = other
      · subst h; simp [insert, find, hk, ih]
      · simp [insert, find, hk, ih, h]

@[simp] theorem get?_empty (name : Text) : (empty : Mapping α).get? name = none := rfl

/-- After setting a name it has the new value, and every other name has its old one. -/
theorem get?_put (m : Mapping α) (name other : Text) (value : α) :
    (m.put name value).get? other = if name = other then some value else m.get? other :=
  find_insert m.entries name other value

theorem map_fst_insert (entries : List (Text × α)) (name : Text) (value : α) :
    (insert name value entries).map Prod.fst =
      if name ∈ entries.map Prod.fst then entries.map Prod.fst else entries.map Prod.fst ++ [name] := by
  induction entries with
  | nil => simp [insert]
  | cons e rest ih =>
    obtain ⟨k, v⟩ := e
    by_cases hk : k = name
    · simp [insert, hk]
    · have hk' : ¬ name = k := fun h => hk h.symm
      by_cases hm : name ∈ rest.map Prod.fst
      · rw [if_pos hm] at ih
        have : name ∈ ((k, v) :: rest).map Prod.fst := by simp only [List.map_cons, List.mem_cons]; exact Or.inr hm
        rw [if_pos this]
        simp only [insert, if_neg hk, List.map_cons, ih]
      · rw [if_neg hm] at ih
        have : name ∉ ((k, v) :: rest).map Prod.fst := by
          simp only [List.map_cons, List.mem_cons, not_or]; exact ⟨hk', hm⟩
        rw [if_neg this]
        simp only [insert, if_neg hk, List.map_cons, ih, List.cons_append]

/-- Setting a name keeps the order of the names; a new one comes last. -/
theorem keys_put (m : Mapping α) (name : Text) (value : α) :
    (m.put name value).keys = if name ∈ m.keys then m.keys else m.keys ++ [name] :=
  map_fst_insert m.entries name value

end Mapping

end Routing
