import Mathlib.Data.List.TakeWhile
import Routing.Proofs.Mapping
import Routing.Proofs.Text.Cutting
import Routing.Proofs.Text.Percent
import Routing.Query

/-!
# Queries are read back

A query that is written for a mapping has the pairs of the mapping (`pairs_serialize`), since neither side of a written
pair holds a character that queries are cut at. A key stands for another name if it is that name with brackets after it
(`bracketBase_eq_some_iff`). The pairs of a mapping give the mapping (`foldl_toPairs`) where the name of a text cannot
be taken for that of a list, which is written with brackets after it. So such a mapping is read back from its query
(`parse_serialize`).
-/

namespace Routing.Query

/-! ### One side of a pair -/

/-- The characters that one side of a pair is percent-coded without. -/
def keeps (c : Char) : Bool := Text.isUnreserved c || c == ' '

theorem plain_of_keeps {c : Char} (h : keeps c = true) : c ≠ '%' ∧ c.toNat < 0x80 := by
  rcases Bool.or_eq_true_iff.mp h with hunreserved | hblank
  · exact Text.plain_of_isUnreserved hunreserved
  · rw [beq_iff_eq.mp hblank]
    decide

theorem encode_eq (t : Text) :
    encode t = (Text.percentEncode keeps t).map fun c => if c = ' ' then '+' else c := rfl

/-- What is written for one side of a pair stands for it. -/
theorem decode_encode (t : Text) : decode (encode t) = t := by
  have hplus : '+' ∉ Text.percentEncode keeps t := Text.not_mem_percentEncode (by decide) (by decide) (by decide) t
  have hback : (encode t).map (fun c => if c = '+' then ' ' else c) = Text.percentEncode keeps t := by
    rw [encode_eq, List.map_map]
    apply (List.map_congr_left _).trans (List.map_id _)
    intro c hc
    by_cases hblank : c = ' '
    · simp [hblank]
    · have hne : c ≠ '+' := fun h => hplus (h ▸ hc)
      simp [hblank, hne]
  rw [decode, hback, Text.percentDecode_percentEncode fun _ => plain_of_keeps]

/-- What is written for one side of a pair has no other marks than those of names and of percent coding. -/
theorem not_mem_encode {d : Char} (hkeeps : keeps d = false) (hpercent : d ≠ '%') (hdigit : Text.hexValue? d = none)
    (hplus : d ≠ '+') (t : Text) : d ∉ encode t := by
  rw [encode_eq, List.mem_map]
  rintro ⟨c, hc, hd⟩
  split at hd
  · exact hplus hd.symm
  · exact Text.not_mem_percentEncode hkeeps hpercent hdigit t (hd ▸ hc)

/-! ### The pairs of a query -/

/-- A pair as it is written. -/
def writePair (pair : Text × Text) : Text := encode pair.1 ++ '=' :: encode pair.2

theorem not_mem_writePair {d : Char} (hd : d = '&' ∨ d = '?') (pair : Text × Text) : d ∉ writePair pair := by
  rw [writePair, List.mem_append, List.mem_cons]
  rcases hd with rfl | rfl
  · have hnone : ∀ t, '&' ∉ encode t := not_mem_encode (by decide) (by decide) (by decide) (by decide)
    simp [hnone]
  · have hnone : ∀ t, '?' ∉ encode t := not_mem_encode (by decide) (by decide) (by decide) (by decide)
    simp [hnone]

/-- A pair is read as it was written. -/
theorem read_writePair (pair : Text × Text) :
    (decode (Text.cut '=' (writePair pair)).1, decode ((Text.cut '=' (writePair pair)).2.getD [])) = pair := by
  have hequals : '=' ∉ encode pair.1 := not_mem_encode (by decide) (by decide) (by decide) (by decide) _
  rw [writePair, Text.cut_append hequals, Option.getD_some, decode_encode, decode_encode]

/-- A query has the pairs that it is written with. -/
theorem pairs_join (written : List (Text × Text)) : pairs (Text.join ['&'] (written.map writePair)) = written := by
  have hpieces : ∀ p ∈ written.map writePair, '&' ∉ p :=
    List.forall_mem_map.mpr fun pair _ => not_mem_writePair (Or.inl rfl) pair
  have hhead : (Text.join ['&'] (written.map writePair)).head? ≠ some '?' := by
    cases written with
    | nil => nofun
    | cons first rest =>
      obtain ⟨c, t, ht⟩ := List.exists_cons_of_ne_nil (show writePair first ≠ [] by simp [writePair])
      have hstart : (Text.join ['&'] ((first :: rest).map writePair)).head? = some c := by
        cases rest <;> simp [Text.join, ht]
      rw [hstart, ne_eq, Option.some.injEq]
      rintro rfl
      exact not_mem_writePair (Or.inr rfl) first (ht ▸ List.mem_cons_self)
  have hfilter : (written.map writePair).filter (fun t => !t.isEmpty) = written.map writePair := by
    rw [List.filter_eq_self, List.forall_mem_map]
    intro pair _
    simp [writePair]
  cases written with
  | nil => rfl
  | cons first rest =>
    rw [pairs, dropLeading_of_head_ne hhead, Text.splitOn_join (by simp) hpieces, hfilter, List.map_map]
    exact (List.map_congr_left fun pair _ => read_writePair pair).trans (List.map_id _)

/-- The query of a mapping has the pairs of the mapping. -/
theorem pairs_serialize (m : Mapping Value) : pairs (serialize m) = toPairs m := pairs_join (toPairs m)

/-! ### Names with brackets -/

/-- Whether a name ends in brackets with nothing but digits in them, and something is before these. -/
def IsBracketed (name : Text) : Prop :=
  ∃ base digits, base ≠ [] ∧ (∀ c ∈ digits, Text.isDecimal c = true) ∧ name = base ++ '[' :: digits ++ [']']

theorem isBracket_iff {t : Text} : isBracket t = true ↔
    ∃ digits, (∀ c ∈ digits, Text.isDecimal c = true) ∧
      (t = '[' :: digits ++ [']'] ∨ t = '[' :: digits ++ [']', '\n']) := by
  constructor
  · intro h
    rw [isBracket.eq_def] at h
    split at h
    · next rest =>
      have hrest := List.takeWhile_append_dropWhile (p := Text.isDecimal) (l := rest)
      refine ⟨rest.takeWhile Text.isDecimal, fun c hc => List.mem_takeWhile_imp hc, ?_⟩
      split at h
      · next hdrop => exact Or.inl (by rw [List.cons_append, ← hdrop, hrest])
      · next hdrop => exact Or.inr (by rw [List.cons_append, ← hdrop, hrest])
      · cases h
    · cases h
  · have hclosing : ∀ digits rest : Text, (∀ c ∈ digits, Text.isDecimal c = true) →
        (digits ++ ']' :: rest).dropWhile Text.isDecimal = ']' :: rest := by
      intro digits rest hdigits
      rw [List.dropWhile_append_of_pos hdigits, List.dropWhile_cons_of_neg (by decide)]
    rintro ⟨digits, hdigits, rfl | rfl⟩
    · rw [List.cons_append, isBracket, hclosing digits [] hdigits]
      rfl
    · rw [List.cons_append, isBracket, hclosing digits ['\n'] hdigits]
      rfl

/-- Whether a key is a name with brackets after it, as `name[]` and `name[3]` are: the name is of one line and not
empty, the brackets have nothing but digits in them, and no more than a line break comes after them. -/
def Brackets (name key : Text) : Prop :=
  name ≠ [] ∧ '\n' ∉ name ∧ ∃ digits, (∀ c ∈ digits, Text.isDecimal c = true) ∧
    (key = name ++ '[' :: digits ++ [']'] ∨ key = name ++ '[' :: digits ++ [']', '\n'])

theorem brackets_iff {name key : Text} :
    Brackets name key ↔ name ≠ [] ∧ '\n' ∉ name ∧ ∃ brackets, isBracket brackets = true ∧ key = name ++ brackets := by
  refine and_congr_right' (and_congr_right' ⟨?_, ?_⟩)
  · rintro ⟨digits, hdigits, rfl | rfl⟩
    · exact ⟨_, isBracket_iff.mpr ⟨digits, hdigits, Or.inl rfl⟩, List.append_assoc _ _ _⟩
    · exact ⟨_, isBracket_iff.mpr ⟨digits, hdigits, Or.inr rfl⟩, List.append_assoc _ _ _⟩
  · rintro ⟨brackets, hbrackets, rfl⟩
    obtain ⟨digits, hdigits, rfl | rfl⟩ := isBracket_iff.mp hbrackets
    · exact ⟨digits, hdigits, Or.inl (List.append_assoc _ _ _).symm⟩
    · exact ⟨digits, hdigits, Or.inr (List.append_assoc _ _ _).symm⟩

/-- Brackets open only once. -/
theorem opening_of_isBracket {c : Char} {t : Text} (h : isBracket (c :: t) = true) : c = '[' ∧ '[' ∉ t := by
  obtain ⟨digits, hdigits, h | h⟩ := isBracket_iff.mp h
  all_goals
    obtain ⟨rfl, rfl⟩ := List.cons.inj h
    have hdigit : '[' ∉ digits := fun hmem => absurd (hdigits _ hmem) (by decide)
    simp [hdigit]

/-- Brackets with something before them are no brackets. -/
theorem isBracket_append {before brackets : Text} (hne : before ≠ []) (h : isBracket brackets = true) :
    isBracket (before ++ brackets) = false := by
  obtain ⟨c, before, rfl⟩ := List.exists_cons_of_ne_nil hne
  rw [Bool.eq_false_iff]
  intro hall
  cases brackets with
  | nil => cases h
  | cons d rest =>
    obtain ⟨rfl, -⟩ := opening_of_isBracket h
    exact (opening_of_isBracket hall).2 (List.mem_append_right _ List.mem_cons_self)

/-- The name before brackets is found, whatever brackets it has itself. -/
theorem bracketBase_append {name brackets : Text} (hne : name ≠ []) (hline : '\n' ∉ name)
    (h : isBracket brackets = true) : bracketBase (name ++ brackets) = some name := by
  induction name with
  | nil => exact absurd rfl hne
  | cons c rest ih =>
    rw [List.mem_cons, not_or] at hline
    rw [List.cons_append, bracketBase, if_neg (Ne.symm hline.1)]
    by_cases hrest : rest = []
    · rw [hrest, List.nil_append, if_pos h]
    · rw [if_neg (Bool.eq_false_iff.mp (isBracket_append hrest h)), ih hrest hline.2]
      rfl

/-- A key stands for a name just when it is that name with brackets after it. -/
theorem bracketBase_eq_some_iff {name key : Text} : bracketBase key = some name ↔ Brackets name key := by
  rw [brackets_iff]
  constructor
  · intro h
    induction key generalizing name with
    | nil => cases h
    | cons c rest ih =>
      rw [bracketBase] at h
      split at h
      · cases h
      · next hc =>
        split at h
        · next hrest =>
          obtain rfl := Option.some.inj h
          exact ⟨List.cons_ne_nil _ _, by simpa using Ne.symm hc, rest, hrest, rfl⟩
        · obtain ⟨name, hname, rfl⟩ := Option.map_eq_some_iff.mp h
          obtain ⟨-, hline, brackets, hbrackets, rfl⟩ := ih hname
          exact ⟨List.cons_ne_nil _ _, by simp [Ne.symm hc, hline], brackets, hbrackets, rfl⟩
  · rintro ⟨hne, hline, brackets, hbrackets, rfl⟩
    exact bracketBase_append hne hline hbrackets

theorem bracketBase_eq_none {key : Text} : bracketBase key = none ↔ ∀ name, ¬ Brackets name key := by
  simp only [Option.eq_none_iff_forall_ne_some, ne_eq, bracketBase_eq_some_iff]

/-- A name of one line stands for itself just when it is not written with brackets. -/
theorem bracketBase_eq_none_iff {name : Text} (hline : '\n' ∉ name) :
    bracketBase name = none ↔ ¬ IsBracketed name := by
  rw [bracketBase_eq_none, ← not_exists, not_iff_not]
  constructor
  · rintro ⟨base, hne, -, digits, hdigits, rfl | rfl⟩
    · exact ⟨base, digits, hne, hdigits, rfl⟩
    · exact absurd (by simp) hline
  · rintro ⟨base, digits, hne, hdigits, rfl⟩
    exact ⟨base, hne, fun hmem => hline (by simp [hmem]), digits, hdigits, Or.inl rfl⟩

theorem bracketBase_brackets {name : Text} (hne : name ≠ []) (hline : '\n' ∉ name) :
    bracketBase (name ++ ['[', ']']) = some name :=
  bracketBase_append hne hline (by decide)

/-! ### Collecting the pairs -/

/-- The entries that are told from each other in a query: a name of one line with a text, where the name is not written
with brackets, or with a list of texts. -/
inductive IsReadable : Text × Value → Prop
  | text {name t : Text} (hne : name ≠ []) (hline : '\n' ∉ name) (hplain : ¬ IsBracketed name) :
    IsReadable (name, .str t)
  | list {name : Text} {items : List Text} (hne : name ≠ []) (hline : '\n' ∉ name) (hitems : items ≠ []) :
    IsReadable (name, .list (items.map .str))

/-- The entries that come back from their own pairs: a text under a name that stands for itself, or a list of texts
under a name that its key with brackets stands for. -/
inductive ComesBack : Text × Value → Prop
  | text {name t : Text} (hbase : bracketBase name = none) : ComesBack (name, .str t)
  | list {name : Text} {items : List Text} (hbase : bracketBase (name ++ ['[', ']']) = some name)
    (hitems : items ≠ []) : ComesBack (name, .list (items.map .str))

theorem IsReadable.comesBack {e : Text × Value} (h : IsReadable e) : ComesBack e := by
  cases h with
  | text _ hline hplain => exact .text ((bracketBase_eq_none_iff hline).mpr hplain)
  | list hne hline hitems => exact .list (bracketBase_brackets hne hline) hitems

section Collect

variable {before : List (Text × Value)} {name : Text}

/-- A text of a new name is the last entry. -/
theorem addPair_text (hnew : name ∉ before.map Prod.fst) (hbase : bracketBase name = none) (t : Text) :
    addPair ⟨before⟩ (name, t) = ⟨before ++ [(name, .str t)]⟩ := by
  have hget : (Mapping.mk before).get? name = none := Mapping.find_eq_none_iff.mpr hnew
  simp only [addPair, hbase, add, hget, Mapping.put, Mapping.insert_of_new hnew, Bool.false_eq_true, if_false]

/-- The items of a list are added to the last entry one by one. -/
theorem foldl_items (hnew : name ∉ before.map Prod.fst) (hbase : bracketBase (name ++ ['[', ']']) = some name)
    (done : List Value) (items : List Text) :
    (items.map fun t => (name ++ ['[', ']'], t)).foldl addPair ⟨before ++ [(name, .list done)]⟩ =
      ⟨before ++ [(name, .list (done ++ items.map .str))]⟩ := by
  induction items generalizing done with
  | nil => simp
  | cons t items ih =>
    have hget := Mapping.get?_of_last hnew (Value.list done)
    have hstep : addPair ⟨before ++ [(name, .list done)]⟩ (name ++ ['[', ']'], t) =
        ⟨before ++ [(name, .list (done ++ [.str t]))]⟩ := by
      simp only [addPair, hbase, add, hget, Mapping.put, Mapping.insert_of_last hnew]
    rw [List.map_cons, List.foldl_cons, hstep, ih, List.map_cons, List.append_assoc, List.singleton_append]

/-- A list of a new name is the last entry. -/
theorem foldl_list (hnew : name ∉ before.map Prod.fst) (hbase : bracketBase (name ++ ['[', ']']) = some name)
    {items : List Text} (hitems : items ≠ []) :
    (items.map fun t => (name ++ ['[', ']'], t)).foldl addPair ⟨before⟩ =
      ⟨before ++ [(name, .list (items.map .str))]⟩ := by
  obtain ⟨first, rest, rfl⟩ := List.exists_cons_of_ne_nil hitems
  have hget : (Mapping.mk before).get? name = none := Mapping.find_eq_none_iff.mpr hnew
  have hfirst : addPair ⟨before⟩ (name ++ ['[', ']'], first) = ⟨before ++ [(name, .list [.str first])]⟩ := by
    simp only [addPair, hbase, add, hget, Mapping.put, Mapping.insert_of_new hnew, if_true]
  rw [List.map_cons, List.foldl_cons, hfirst, foldl_items hnew hbase]
  rfl

/-- The pairs of entries that come back give the entries, after others with other names. -/
theorem foldl_toPairs_of_comesBack {entries : List (Text × Value)}
    (hnodup : ((before ++ entries).map Prod.fst).Nodup) (h : ∀ e ∈ entries, ComesBack e) :
    (toPairs ⟨entries⟩).foldl addPair ⟨before⟩ = ⟨before ++ entries⟩ := by
  induction entries generalizing before with
  | nil => rw [List.append_nil]; rfl
  | cons e rest ih =>
    rw [List.forall_mem_cons] at h
    have hnew : e.1 ∉ before.map Prod.fst := by
      rw [List.map_append, List.map_cons, List.nodup_append] at hnodup
      intro hmem
      exact hnodup.2.2 _ hmem _ List.mem_cons_self rfl
    rw [List.append_cons] at hnodup ⊢
    have hrest := ih hnodup h.2
    cases h.1 with
    | @text name t hbase =>
      have hpairs : toPairs ⟨(name, .str t) :: rest⟩ = (name, t) :: toPairs ⟨rest⟩ := rfl
      rw [hpairs, List.foldl_cons, addPair_text hnew hbase, hrest]
    | @list name items hbase hitems =>
      have hpairs : toPairs ⟨(name, .list (items.map .str)) :: rest⟩ =
          (items.map fun t => (name ++ ['[', ']'], t)) ++ toPairs ⟨rest⟩ := by
        simp [toPairs, Function.comp_def]
      rw [hpairs, List.foldl_append, foldl_list hnew hbase hitems, hrest]

/-- The pairs of entries that are told from each other give the entries. -/
theorem foldl_toPairs {entries : List (Text × Value)} (hnodup : ((before ++ entries).map Prod.fst).Nodup)
    (h : ∀ e ∈ entries, IsReadable e) : (toPairs ⟨entries⟩).foldl addPair ⟨before⟩ = ⟨before ++ entries⟩ :=
  foldl_toPairs_of_comesBack hnodup fun e he => (h e he).comesBack

end Collect

/-- A mapping whose entries are told from each other is read back from its query, in the same order. -/
theorem parse_serialize {m : Mapping Value} (hnodup : m.keys.Nodup) (h : ∀ e ∈ m.entries, IsReadable e) :
    parse (serialize m) = m := by
  rw [parse, pairs_serialize]
  exact @foldl_toPairs [] _ hnodup h

/-- A text under a name with marks that queries are cut at, a list of one text under a name that ends in brackets, and
an empty text under a name that is nothing but brackets. -/
theorem marks_and_brackets_are_read_back :
    parse (serialize ⟨[("a&b=".toList, .str "x y+ÿ%".toList), ("k[]".toList, .list [.str ['?']]),
        ("[0]".toList, .str [])]⟩) =
      ⟨[("a&b=".toList, .str "x y+ÿ%".toList), ("k[]".toList, .list [.str ['?']]), ("[0]".toList, .str [])]⟩ := by
  refine parse_serialize (by decide) ?_
  simp only [List.forall_mem_cons]
  exact ⟨.text (by decide) (by decide) ((bracketBase_eq_none_iff (by decide)).mp (by cbv)),
    @IsReadable.list _ [['?']] (by decide) (by decide) (List.cons_ne_nil _ _),
    .text (by decide) (by decide) ((bracketBase_eq_none_iff (by decide)).mp (by cbv)), List.forall_mem_nil _⟩

end Routing.Query
