import Routing.Proofs.Route.Casing

/-!
# The delimiter of a run

A variable without a capture takes no delimiter, so a run takes the items that stand after delimiters. Its rounds are
found by an expression of its own, and there the variable takes no slash, whatever the delimiter is (`tokenize_item`).
So a run with another delimiter is one round, and a match gives all of its items as one text (`matchPath_delimited`).
-/

namespace Routing

open Pattern

namespace Pattern

open Regex

/-! ### Default captures -/

section DefaultCapture

variable {delimiter : Text} (h : delimiter ≠ [])

include h

theorem isPlainCapture_defaultCapture : IsPlainCapture (defaultCapture delimiter) := by
  refine ⟨⟨_, (reads_defaultCapture 0 h).apart.read⟩, ?_⟩
  rw [all_defaultCapture h]
  simp only [List.forall_mem_cons]
  exact ⟨rfl, rfl, List.forall_mem_nil _⟩

theorem brackets_defaultCapture : brackets (Lexeme.all (defaultCapture delimiter)) = [] := by
  rw [all_defaultCapture h]
  rfl

end DefaultCapture

theorem read_slashCapture : Regex.read (defaultCapture ['/']) = .ok (seqAll [runOf '/']) :=
  (reads_defaultCapture 0 (List.cons_ne_nil _ _)).apart.read

/-! ### The pattern -/

/-- Whether a character may delimit the items of a run: it is not part of the syntax of patterns, and a text that is
decoded keeps it. -/
structure IsDelimiter (d : Char) : Prop where
  plain : d ≠ '[' ∧ d ≠ ']' ∧ d ≠ '\x7b'
  ascii : d.toNat < 0x80
  ne_percent : d ≠ '%'

/-- The pattern `word[d{name}]*`. -/
def delimitedPattern (word : Text) (d : Char) (name : Text) : Text :=
  word ++ '[' :: (d :: '\x7b' :: name ++ '\x7d' :: [']', '*'])

section DelimitedPattern

variable {word name : Text} (hword : IsName word) (hname : IsName name) {d : Char} (hd : IsDelimiter d)

include hword hname hd

theorem tokenize_delimitedPattern (delimiter : Text) : tokenize delimiter (delimitedPattern word d name) =
    .ok ⟨delimitedPattern word d name, (Casing.leading word d).tokens name (defaultCapture delimiter)
      (d :: '\x7b' :: name ++ ['\x7d'])⟩ := by
  have hscan : Part.scan 0 {} [] (delimitedPattern word d name) =
      some [.text word, .group (d :: '\x7b' :: name ++ ['\x7d']) [.text (d :: '\x7b' :: name ++ ['\x7d'])] .star] := by
    rw [delimitedPattern, Part.scan_plain (plain_of_isName hword), Part.scan_cons, if_neg (by decide), if_pos rfl,
      scan_item hd.plain hname, Part.scan_cons, if_neg (by decide), if_neg (by decide), if_pos rfl]
    simp [Part.readSuffix, Part.scan, Part.Open.pieces, Part.Open.rest, Part.Open.add, Part.Open.extend, Part.source,
      hword.1]
  have hrun : runTokens (defaultCapture delimiter) [] word = literals word := by
    have hall := @runTokens_append (defaultCapture delimiter) [] word (fun c hc => (plain_of_isName hword c hc).2.2) []
    obtain ⟨c, t, rfl⟩ := List.exists_cons_of_ne_nil hword.1
    rw [List.append_nil, List.append_nil, runTokens] at hall
    rw [hall]
    simp [literals, literalOf]
  rw [tokenize, Part.outline, hscan]
  show Except.ok (Tokenized.mk _ (partsTokens _ _).1) = _
  simp only [partsTokens, partTokens, runTokens_item hd.plain hname, hrun]
  simp [Casing.tokens, Casing.round, Casing.leading, literals, lastVariable, Suffix.repeats]

/-- The pattern is accepted, and its rounds are found by an expression with a slash for the delimiter. -/
theorem exists_isCased_delimited :
    ∃ p, (RoutePattern.ofText [d] (delimitedPattern word d name)).outcome = .ok p ∧
      p.IsCased (.leading word d) name (defaultCapture [d]) (d :: '\x7b' :: name ++ ['\x7d']) (seqAll [runOf '/']) := by
  have hne (c : Char) : [c] ≠ [] := List.cons_ne_nil c []
  have hspliceable := (Casing.leading word d).spliceable_tokens name (defaultCapture [d])
    (d :: '\x7b' :: name ++ ['\x7d']) (by rw [brackets_defaultCapture (hne d)]; rfl)
    (by simp [Casing.leading, escape, all_nil])
  have hhead : (delimitedPattern word d name).head? ≠ some '/' := by
    rw [delimitedPattern, List.head?_append_of_ne_nil _ hword.1]
    exact (isUnslashed_of_isName hword).head
  have hlast : (delimitedPattern word d name).getLast? = some '*' := by simp [delimitedPattern, List.getLast?_cons]
  have htokens := tokenize_delimitedPattern hword hname hd [d]
  obtain ⟨p, e, hp, he, hcased⟩ := Casing.exists_isCased htokens (tokenize_item hd.plain hname ['/'])
    (isPlainCapture_defaultCapture (hne d)) (isPlainCapture_defaultCapture (hne '/')) hspliceable hhead hlast
    (by decide)
  rw [read_slashCapture, Except.ok.injEq] at he
  exact ⟨p, hp, he ▸ hcased⟩

end DelimitedPattern

/-! ### Items -/

/-- The items that are between slashes where `d` stands before each of some items. -/
def slashItems (d : Char) (xs : List Text) : List Text :=
  if d = '/' then xs else if xs = [] then [] else [Text.join [d] xs]

theorem slashItems_eq_self_iff {d : Char} {xs : List Text} : slashItems d xs = xs ↔ d = '/' ∨ xs.length ≤ 1 := by
  rw [slashItems]
  split
  · next h => simp [h]
  · next h =>
    match xs with
    | [] => simp
    | [x] => simp [Text.join_singleton]
    | x :: y :: rest => simp [h]

theorem slashItems_eq_nil_iff {d : Char} {xs : List Text} : slashItems d xs = [] ↔ xs = [] := by
  rw [slashItems]
  split
  · exact Iff.rfl
  · split <;> simp [*]

theorem run_leading (word : Text) (d : Char) {xs : List Text} (hne : xs ≠ []) :
    (Casing.leading word d).run xs = d :: Text.join [d] xs := by
  induction xs with
  | nil => exact absurd rfl hne
  | cons x xs ih =>
    by_cases hxs : xs = []
    · simp [hxs, Casing.run, Casing.item, Casing.leading, Text.join_singleton]
    · have hrun : (Casing.leading word d).run (x :: xs) = d :: x ++ (Casing.leading word d).run xs := by
        simp [Casing.run, Casing.item, Casing.leading]
      rw [hrun, ih hxs, Text.join_cons x hxs, List.cons_append]

theorem join_mem_without {d : Char} (hd : d ≠ '/') {xs : List Text} (hne : xs ≠ []) (hxs : ∀ x ∈ xs, x ∈ without '/') :
    Text.join [d] xs ∈ without '/' := by
  induction xs with
  | nil => exact absurd rfl hne
  | cons x xs ih =>
    rw [List.forall_mem_cons] at hxs
    by_cases hnil : xs = []
    · rw [hnil, Text.join_singleton]
      exact hxs.1
    · rw [Text.join_cons x hnil]
      refine ⟨List.append_ne_nil_of_left_ne_nil hxs.1.1 _, ?_⟩
      simp only [List.mem_append, List.mem_cons, not_or]
      exact ⟨hxs.1.2, Ne.symm hd, (ih hnil hxs.2).2⟩

/-- The rounds of such a run are what is between slashes. -/
theorem cuts_leading (word : Text) (d : Char) {xs : List Text} (hxs : ∀ x ∈ xs, x ∈ without '/') :
    Cuts ((Casing.leading word d).splitter (seqAll [runOf '/'])) (slashItems d xs)
      ((Casing.leading word d).run xs) := by
  rw [slashItems]
  split
  · next hd =>
    refine Casing.cuts_run (fun ys => ?_) (fun x _ => ?_) fun x hx => takesAll_runOf (hxs x hx)
    · cases ys <;> simp [Casing.leading, Casing.run, Casing.item, hd]
    · simp [Casing.item, Casing.leading]
  · next hd =>
    split
    · next hnil =>
      rw [hnil]
      exact .nil
    · next hne =>
      rw [run_leading word d hne]
      -- nothing stops the capture before the end, so one round takes all of the run
      refine .round (fun s hs => ?_) (by simp) .nil
      refine Casing.head?_ways_splitter (takesAll_runOf (join_mem_without hd hne hxs)) (by simp [Casing.leading]) ?_
      rw [hs, Casing.item, Casing.leading, List.append_nil, List.append_nil, List.singleton_append]

end Pattern

namespace Route

/-- Coded texts that are joined by a delimiter are decoded to the texts, joined by it. -/
theorem percentDecode_join {d : Char} (hd : IsDelimiter d) (items : List Text) :
    Text.percentDecode (Text.join [d] (items.map coded)) = Text.join [d] items := by
  induction items with
  | nil => rfl
  | cons t items ih =>
    by_cases hnil : items = []
    · rw [hnil, List.map_singleton, Text.join_singleton, Text.join_singleton, percentDecode_coded]
    · have hmap : items.map coded ≠ [] := by simpa using hnil
      have hkeep : ∀ c, isPathChar c = true → c ≠ '%' ∧ c.toNat < 0x80 := fun _ => plain_of_isPathChar
      rw [List.map_cons, Text.join_cons _ hmap, coded, Text.percentDecode_append hkeep,
        Text.percentDecode_cons hd.ne_percent hd.ascii, ih, Text.join_cons t hnil]

/-- The items between slashes are decoded to the items between slashes of the texts. -/
theorem map_roundValue_slashItems {d : Char} (hd : IsDelimiter d) {items : List Text} (hitems : ∀ t ∈ items, t ≠ []) :
    (slashItems d (items.map coded)).map roundValue = (slashItems d items).map .str := by
  have hcoded : ∀ x ∈ items.map coded, x ∈ without '/' :=
    List.forall_mem_map.mpr fun t ht => coded_mem_without (hitems t ht)
  have hvalue : ∀ x, x ∈ without '/' → roundValue x = .str (Text.percentDecode x) :=
    fun x hx => roundValue_of_not_mem hx.2
  by_cases hslash : d = '/'
  · rw [slashItems, slashItems, if_pos hslash, if_pos hslash, List.map_map]
    refine List.map_congr_left fun t ht => ?_
    rw [Function.comp_apply, hvalue _ (coded_mem_without (hitems t ht)), percentDecode_coded]
  · by_cases hnil : items = []
    · rw [hnil, slashItems, slashItems]
      simp [hslash]
    · have hmap : items.map coded ≠ [] := by simpa using hnil
      rw [slashItems, slashItems, if_neg hslash, if_neg hslash, if_neg hnil, if_neg hmap, List.map_singleton,
        List.map_singleton, hvalue _ (join_mem_without hslash hmap hcoded), percentDecode_join hd]

end Route

namespace Branch

/-- A route with such a run writes the texts, and reads back the items between slashes. -/
theorem matchPath_slashItems {r : Route} (hr : r.IsMade) {d : Char} (hd : IsDelimiter d) {word name raw : Text}
    (hword : IsName word)
    (hp : r.pattern.IsCased (.leading word d) name (defaultCapture [d]) raw (Regex.seqAll [runOf '/']))
    {items : List Text} (hdefaults : items = [] → r.defaults.get? name = none)
    (hitems : ∀ t ∈ items, t ≠ [] ∧ d ∉ coded t) :
    ∃ found, r.path ⟨[(name, .list (items.map .str))]⟩ =
        .ok ('/' :: (Casing.leading word d).text (items.map coded)) ∧
      ((node r []).matchPath (Text.dropLeading '/' ('/' :: (Casing.leading word d).text (items.map coded)))
        .empty .empty).outcome = .ok (some found) ∧
      found.above = [] ∧ found.route = r ∧ found.params.get? name = some (.list ((slashItems d items).map .str)) := by
  have hcoded : (items.map Value.str).map encodeValue = items.map coded := by
    rw [List.map_map]
    exact List.map_congr_left fun t _ => encodeValue_str t
  have hwithout : ∀ x ∈ items.map coded, x ∈ without '/' :=
    List.forall_mem_map.mpr fun t ht => coded_mem_without (hitems t ht).1
  have hvalues : ∀ v ∈ items.map Value.str, v.isNull = false ∧ encodeValue v ∈ takenBy (defaultCapture [d]) := by
    rw [List.forall_mem_map, takenBy_defaultCapture (List.cons_ne_nil d []), withoutAny_singleton]
    intro t ht
    rw [encodeValue_str]
    exact ⟨rfl, (coded_mem_without (hitems t ht).1).1, (hitems t ht).2⟩
  have hempty : [] ∉ ((Casing.leading word d).splitter (Regex.seqAll [runOf '/'])).language :=
    Casing.nil_not_mem_language_splitter (by simp [Casing.leading]) _
  have hcuts := cuts_leading word d hwithout
  rw [← hcoded] at hcuts
  have hnone : slashItems d ((items.map Value.str).map encodeValue) = [] → r.defaults.get? name = none := by
    rw [hcoded, slashItems_eq_nil_iff, List.map_eq_nil_iff]
    exact hdefaults
  have hends := Casing.isUnslashed_leading hword d fun x hx => isUnslashed_of_mem_without (hwithout x hx)
  have hread := matchPath_casing hr hp hempty hvalues hcuts hnone (congrArg _ hcoded) hends
  rw [hcoded, Route.map_roundValue_slashItems hd fun t ht => (hitems t ht).1] at hread
  exact hread

/-- A run with a delimiter is accepted, and every list of texts that are not empty and are coded without the delimiter
is written. What is read back is the list if slashes are the delimiter or there are no two texts, and else the text in
which they are joined by the delimiter. -/
theorem matchPath_delimited {d : Char} (hd : IsDelimiter d) {word name : Text} (hword : IsName word)
    (hname : IsName name) :
    ∃ p, (RoutePattern.ofText [d] (delimitedPattern word d name)).outcome = .ok p ∧
      ∀ (r : Route) (items : List Text), r.pattern = p → r.delimiter = [d] →
        (items = [] → r.defaults.get? name = none) → (∀ t ∈ items, t ≠ [] ∧ d ∉ coded t) →
        ∃ path found, r.path ⟨[(name, .list (items.map .str))]⟩ = .ok path ∧
          ((node r []).matchPath (Text.dropLeading '/' path) .empty .empty).outcome = .ok (some found) ∧
          found.above = [] ∧ found.route = r ∧
          found.params.get? name = some (.list ((slashItems d items).map .str)) ∧
          (found.params.get? name = some (.list (items.map .str)) ↔ d = '/' ∨ items.length ≤ 1) := by
  obtain ⟨p, hp, hcased⟩ := exists_isCased_delimited hword hname hd
  refine ⟨p, hp, ?_⟩
  rintro r items rfl hdelimiter hdefaults hitems
  obtain ⟨found, hpath, hfound, habove, hroute, hparams⟩ :=
    matchPath_slashItems ⟨_, hdelimiter ▸ hp⟩ hd hword hcased hdefaults hitems
  refine ⟨_, found, hpath, hfound, habove, hroute, hparams, ?_⟩
  rw [hparams, ← slashItems_eq_self_iff]
  simp [List.map_inj_right]

theorem isDelimiter_dot : IsDelimiter '.' := ⟨by decide, by decide, by decide⟩

/-- With dots for the delimiter, one item is read back. -/
theorem item_after_dot_is_read_back :
    ∃ r : Route, (RoutePattern.ofText ['.'] "w[.\x7bv\x7d]*".toList).outcome = .ok r.pattern ∧ r.delimiter = ['.'] ∧
      ∃ path found, r.path ⟨[(['v'], .list [.str "a/b".toList])]⟩ = .ok path ∧
        ((node r []).matchPath (Text.dropLeading '/' path) .empty .empty).outcome = .ok (some found) ∧
        found.params.get? ['v'] = some (.list [.str "a/b".toList]) := by
  have hword : IsName ['w'] := isName_singleton (by cbv)
  have hname : IsName ['v'] := isName_singleton (by cbv)
  obtain ⟨p, hp, hall⟩ := matchPath_delimited isDelimiter_dot hword hname
  have hitems : ∀ t ∈ ["a/b".toList], t ≠ [] ∧ '.' ∉ coded t := by decide
  let r : Route := { id := 0, delimiter := ['.'], pattern := p }
  obtain ⟨path, found, hpath, hfound, -, -, -, hread⟩ := hall r _ rfl rfl (fun _ => rfl) hitems
  exact ⟨r, hp, rfl, path, found, hpath, hfound, hread.mpr (.inr (Nat.le_refl 1))⟩

/-- With dots for the delimiter, the items `a` and `b` are read back as the one item `a.b`. -/
theorem items_after_dots_are_joined :
    IsDelimiter '.' ∧ IsName ['w'] ∧ (∀ t ∈ [['a'], ['b']], t ≠ [] ∧ '.' ∉ coded t) ∧
      ∃ r : Route, (RoutePattern.ofText ['.'] "w[.\x7bv\x7d]*".toList).outcome = .ok r.pattern ∧ r.delimiter = ['.'] ∧
        r.defaults = .empty ∧ ∃ found, r.path ⟨[(['v'], .list [.str ['a'], .str ['b']])]⟩ = .ok "/w.a.b".toList ∧
        ((node r []).matchPath (Text.dropLeading '/' "/w.a.b".toList) .empty .empty).outcome = .ok (some found) ∧
        found.params.get? ['v'] = some (.list [.str "a.b".toList]) := by
  have hword : IsName ['w'] := isName_singleton (by cbv)
  have hname : IsName ['v'] := isName_singleton (by cbv)
  obtain ⟨p, hp, hcased⟩ := exists_isCased_delimited hword hname isDelimiter_dot
  have hitems : ∀ t ∈ [['a'], ['b']], t ≠ [] ∧ '.' ∉ coded t := by decide
  let r : Route := { id := 0, delimiter := ['.'], pattern := p }
  obtain ⟨found, hpath, hfound, -, -, hparams⟩ :=
    @matchPath_slashItems r ⟨_, hp⟩ _ isDelimiter_dot _ _ _ hword hcased _ (fun _ => rfl) hitems
  exact ⟨isDelimiter_dot, hword, hitems, r, hp, rfl, rfl, found, hpath, hfound, hparams⟩

end Branch

end Routing
