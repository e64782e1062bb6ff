import Routing.Proofs.Route.Casing

/-!
# Runs of tuples

The capture of a tuple is made of default captures with slashes between them. It takes as many texts as there are
captures, and at first all of each one, since each stops at the next slash (`takesAll_tuple`). So a run of tuples is cut
where one tuple ends and the next one starts, and each of them gives the list of its texts, whatever characters they
have (`matchPath_tuples`).
-/

namespace Routing

open Pattern

namespace Pattern

open Regex

/-! ### The capture of a tuple -/

/-- The capture `[^/]+`, a number of times and with slashes between them. -/
def tupleCapture (length : Nat) : Text := Text.join ['/'] (List.replicate length "[^/]+".toList)

/-- Tokens with this capture for their expression, where there is one variable more than there are slashes. -/
def tupleTokens : Nat → List Token
  | 0 => [.variable [] (defaultCapture ['/'])]
  | n + 1 => .variable [] (defaultCapture ['/']) :: .literal ['/'] :: tupleTokens n

/-- The expression of the capture. -/
def tupleExpr (n : Nat) : Regex := exprOf '/' true 0 (tupleTokens n)

theorem tupleCapture_succ (n : Nat) :
    tupleCapture (n + 2) = defaultCapture ['/'] ++ '/' :: tupleCapture (n + 1) :=
  Text.join_cons _ (List.cons_ne_nil _ _)

theorem tupleCapture_one : tupleCapture 1 = defaultCapture ['/'] := rfl

theorem regexOf_tupleTokens (n : Nat) : regexOf true (tupleTokens n) = tupleCapture (n + 1) := by
  induction n with
  | zero => simp [tupleTokens, regexOf, tupleCapture_one]
  | succ n ih => simp [tupleTokens, regexOf, ih, tupleCapture_succ, escape, specials]

theorem capturesOf_tupleTokens (n : Nat) : ∀ c ∈ capturesOf (tupleTokens n), c = defaultCapture ['/'] := by
  induction n with
  | zero => simp [tupleTokens, capturesOf]
  | succ n ih => simpa [tupleTokens, capturesOf] using ih

theorem read_tupleCapture (n : Nat) : Regex.read (tupleCapture (n + 1)) = .ok (tupleExpr n) := by
  rw [← regexOf_tupleTokens]
  exact read_regexOf (capturesOf_tupleTokens n)

/-- The lexemes of the capture are those of default captures and slashes. -/
theorem mem_all_tupleCapture (n : Nat) : ∀ l ∈ Lexeme.all (tupleCapture (n + 1)),
    l ∈ [.set [.range '/'.toNat '/'.toNat] true, .count 1 none .greedy, .point '/'.toNat] := by
  have hdefault := all_defaultCapture (List.cons_ne_nil '/' [])
  induction n with
  | zero => simp [tupleCapture_one, hdefault]
  | succ n ih =>
    have hlexes : Lexes (defaultCapture ['/']) := by simp [Lexes, hdefault]
    have hnext : Lexeme.next ('/' :: tupleCapture (n + 1)) = some (.point '/'.toNat, tupleCapture (n + 1)) :=
      next_of_plain (by decide) _
    have hall : Lexeme.all (tupleCapture (n + 2)) =
        [.set [.range '/'.toNat '/'.toNat] true, .count 1 none .greedy, .point '/'.toNat] ++
          Lexeme.all (tupleCapture (n + 1)) := by
      rw [tupleCapture_succ, all_append hlexes (separate_cons (by decide) (by decide) _), hdefault, all_of_next hnext]
      rfl
    rw [hall, List.forall_mem_append]
    exact ⟨fun _ => id, ih⟩

theorem isPlainCapture_tuple (n : Nat) : IsPlainCapture (tupleCapture (n + 1)) := by
  refine ⟨⟨_, read_tupleCapture n⟩, fun l hl => ?_⟩
  have hmem := mem_all_tupleCapture n l hl
  simp only [List.mem_cons, List.not_mem_nil, or_false] at hmem
  rcases hmem with rfl | rfl | rfl <;> rfl

theorem brackets_tupleCapture (n : Nat) : brackets (Lexeme.all (tupleCapture (n + 1))) = [] := by
  refine List.filterMap_eq_nil_iff.mpr fun l hl => ?_
  have hmem := mem_all_tupleCapture n l hl
  simp only [List.mem_cons, List.not_mem_nil, or_false] at hmem
  rcases hmem with rfl | rfl | rfl <;> rfl

/-- No braces are in the capture. -/
theorem balanced_tupleCapture (n : Nat) : Balanced '\x7b' '\x7d' 0 (tupleCapture (n + 1)) := by
  induction n with
  | zero => decide
  | succ n ih =>
    rw [tupleCapture_succ, balanced_append _ (by decide) (by decide), balanced_other (by decide) (by decide)]
    exact ih

/-- The capture takes as many texts without slashes as it has parts, with slashes between them, and all of them at
first. -/
theorem takesAll_tuple {n : Nat} {parts : List Text} (hlength : parts.length = n + 1)
    (hparts : ∀ p ∈ parts, p ∈ without '/') : TakesAll (tupleExpr n) (Text.join ['/'] parts) := by
  induction n generalizing parts with
  | zero =>
    obtain ⟨p, rfl⟩ := List.length_eq_one_iff.mp hlength
    have hexpr : tupleExpr 0 = seqAll [runOf '/'] := by simp [tupleExpr, tupleTokens, exprOf, itemsOf]
    rw [hexpr, Text.join_singleton]
    exact takesAll_runOf (hparts p (List.mem_singleton_self p))
  | succ n ih =>
    obtain ⟨p, rest, rfl⟩ := List.exists_cons_of_length_eq_add_one hlength
    rw [List.forall_mem_cons] at hparts
    have hrest : rest ≠ [] := by
      rintro rfl
      simp at hlength
    have hexpr : tupleExpr (n + 1) = .seq (runOf '/') (.seq (.oneOf (.single '/' false)) (tupleExpr n)) := by
      simp [tupleExpr, tupleTokens, exprOf, itemsOf, seqAll]
    intro z s hz hs
    rw [Text.join_cons p hrest, List.append_assoc, List.cons_append] at hs
    -- the first text ends at the slash, and the others follow it
    obtain ⟨t, ht, hahead⟩ := head?_ways_runOf hparts.1 (by simp) hs
    have hslash := @head?_ways_oneOf t (.single '/' false) _ _ hahead (holds_single.mpr rfl)
    obtain ⟨u, hu, hend⟩ := ih (by simpa using hlength) hparts.2 z
      (t.moveTo ⟨'/' :: t.behind, Text.join ['/'] rest ++ z⟩) hz rfl
    rw [hexpr]
    exact ⟨u, head?_ways_seq ht (head?_ways_seq hslash hu), hend⟩

end Pattern

/-! ### Tuples -/

/-- Whether some texts are a tuple of this length, none of them empty. -/
structure IsTuple (length : Nat) (row : List Text) : Prop where
  length_eq : row.length = length
  ne_nil : ∀ t ∈ row, t ≠ []

/-- The value of a tuple. -/
def tupleValue (row : List Text) : Value := .list (row.map .str)

theorem encodeValue_tuple (row : List Text) : encodeValue (tupleValue row) = Text.join ['/'] (row.map coded) := by
  rw [encodeValue, tupleValue, Value.parts, List.map_map]
  rfl

theorem isUnslashed_join {parts : List Text} (hne : parts ≠ []) (hparts : ∀ p ∈ parts, p ∈ without '/') :
    IsUnslashed (Text.join ['/'] parts) := by
  induction parts with
  | nil => exact absurd rfl hne
  | cons p rest ih =>
    rw [List.forall_mem_cons] at hparts
    have hfirst := isUnslashed_of_mem_without hparts.1
    by_cases hrest : rest = []
    · rw [hrest, Text.join_singleton]
      exact hfirst
    · rw [Text.join_cons p hrest, List.append_cons]
      exact hfirst.append (ih hrest hparts.2) ['/']

namespace IsTuple

variable {length n : Nat} {row : List Text}

theorem coded_mem_without (h : IsTuple length row) : ∀ p ∈ row.map coded, p ∈ without '/' :=
  List.forall_mem_map.mpr fun t ht => Routing.coded_mem_without (h.ne_nil t ht)

theorem takesAll (h : IsTuple (n + 1) row) : TakesAll (tupleExpr n) (encodeValue (tupleValue row)) := by
  rw [encodeValue_tuple]
  exact takesAll_tuple (by rw [List.length_map, h.length_eq]) h.coded_mem_without

theorem isUnslashed (h : IsTuple (n + 1) row) : IsUnslashed (encodeValue (tupleValue row)) := by
  have hne : row ≠ [] := List.ne_nil_of_length_eq_add_one h.length_eq
  rw [encodeValue_tuple]
  exact isUnslashed_join (by simpa using hne) h.coded_mem_without

/-- The texts of a tuple are cut before they are decoded. -/
theorem roundValue (h : IsTuple length row) (hlength : 2 ≤ length) :
    Route.roundValue (encodeValue (tupleValue row)) = tupleValue row := by
  obtain ⟨first, second, rest, rfl⟩ : ∃ first second rest, row = first :: second :: rest := by
    match row, h.length_eq ▸ hlength with
    | first :: second :: rest, _ => exact ⟨first, second, rest, rfl⟩
  have hpieces := Text.splitOn_join (List.cons_ne_nil (coded first) _) fun p hp => (h.coded_mem_without p hp).2
  have hslash : (Text.join ['/'] ((first :: second :: rest).map coded)).contains '/' = true := by
    rw [List.map_cons, Text.join_cons _ (by simp)]
    simp
  rw [encodeValue_tuple, Route.roundValue, if_pos hslash, List.map_cons, hpieces, ← List.map_cons, List.map_map]
  simp only [Function.comp_def, percentDecode_coded]
  rfl

end IsTuple

/-! ### Runs of tuples -/

namespace Pattern.Casing

/-- The texts around the run of `[{…}/]*word`. -/
def trailing (word : Text) : Casing := { closing := ['/'], after := word }

section Slashed

variable {word name : Text} {k : Casing}

/-- Slashes stand between the items. -/
theorem slash_of_slashed (hk : k = .leading word '/' ∨ k = .trailing word) (xs : List Text) :
    ∀ c ∈ (k.closing ++ k.run xs).head?, c = '/' := by
  rcases hk with rfl | rfl
  · cases xs <;> simp [leading, run, item]
  · simp [trailing]

variable (hword : IsName word) (hk : k = .leading word '/' ∨ k = .trailing word)

include hword hk

theorem plain_of_slashed :
    ∀ t ∈ [k.before, k.opening, k.closing, k.after], ∀ c ∈ t, c ≠ '[' ∧ c ≠ ']' ∧ c ≠ '\x7b' := by
  have hplain := plain_of_isName hword
  rcases hk with rfl | rfl <;> simpa [leading, trailing] using hplain

/-- Neither the run nor the word has a slash at its outer end. -/
theorem isUnslashed_of_slashed {xs : List Text} (hxs : ∀ x ∈ xs, IsUnslashed x) : IsUnslashed (k.text xs) := by
  have hends := isUnslashed_of_isName hword
  rcases hk with rfl | rfl
  · exact isUnslashed_leading hword '/' hxs
  · cases xs with
    | nil => simpa [trailing, text, run] using hends
    | cons x rest =>
      have hx := (hxs x List.mem_cons_self).append hends ('/' :: (trailing word).run rest)
      simpa [trailing, text, run, item] using hx

/-- The pattern does not start with a slash, and its end declares no query. -/
theorem ends_of_slashed (name capture : Text) : (k.pattern name capture).head? ≠ some '/' ∧
    ∃ last, (k.pattern name capture).getLast? = some last ∧ last ≠ '\x7d' ∧ last ≠ '\n' := by
  obtain ⟨hne, hmem⟩ := hword
  rcases hk with rfl | rfl
  · have hslash : '/' ∉ word := fun h => absurd (hmem _ h) (by decide)
    rw [pattern, leading, List.append_assoc, List.head?_append_of_ne_nil _ hne]
    exact ⟨fun h => hslash (List.mem_of_mem_head? h), '*', by simp [List.getLast?_cons], by decide⟩
  · have hlast := List.getLast_mem hne
    refine ⟨by simp [pattern, trailing], word.getLast hne, ?_, ?_, ?_⟩
    · simp [pattern, trailing, List.getLast?_append, List.getLast?_cons, List.getLast?_eq_some_getLast hne]
    · exact fun h => absurd (hmem _ (h ▸ hlast)) (by decide)
    · exact fun h => absurd (hmem _ (h ▸ hlast)) (by decide)

/-- A pattern of tuples is accepted. -/
theorem exists_isCased_tuples (hname : IsName name) (n : Nat) :
    ∃ p, (RoutePattern.ofText ['/'] (k.pattern name (tupleCapture (n + 1)))).outcome = .ok p ∧
      p.IsCased k name (tupleCapture (n + 1)) (k.roundPattern name (tupleCapture (n + 1))) (tupleExpr n) := by
  have hplain := plain_of_slashed hword hk
  have hcapture := isPlainCapture_tuple n
  have hne : tupleCapture (n + 1) ≠ [] := by
    cases n with
    | zero => decide
    | succ n => simp [tupleCapture_succ]
  obtain ⟨htokens, hround⟩ := k.tokenize_pattern name _ hplain hname ⟨hne, balanced_tupleCapture n⟩ ['/']
  -- a slash or nothing comes after the capture, so its lexemes end there
  have hapart : Regex.Lexeme.all (tupleCapture (n + 1) ++ escape k.closing) =
      Regex.Lexeme.all (tupleCapture (n + 1)) ++ Regex.Lexeme.all (escape k.closing) := by
    rcases hk with rfl | rfl
    · simp [leading, escape, Regex.all_nil]
    · have hlexes := (Regex.brackets_of_read (read_tupleCapture n)).1
      exact Regex.all_append hlexes (Regex.separate_cons (by decide) (by decide) _)
  have hspliceable := k.spliceable_tokens name (tupleCapture (n + 1)) (k.roundPattern name (tupleCapture (n + 1)))
    (by rw [brackets_tupleCapture]; rfl) hapart
  obtain ⟨hhead, last, hlast, hend⟩ := ends_of_slashed hword hk name (tupleCapture (n + 1))
  obtain ⟨p, e, hp, he, hcased⟩ := exists_isCased htokens hround hcapture hcapture hspliceable hhead hlast hend
  rw [read_tupleCapture, Except.ok.injEq] at he
  exact ⟨p, hp, he ▸ hcased⟩

end Slashed

end Pattern.Casing

namespace Branch

/-- A run of tuples before or after a word is accepted, and every list of tuples of texts that are not empty is written
and read back. -/
theorem matchPath_tuples {length : Nat} (hlength : 2 ≤ length) {word name : Text} (hword : IsName word)
    (hname : IsName name) {k : Casing} (hk : k = .leading word '/' ∨ k = .trailing word) :
    ∃ p, (RoutePattern.ofText ['/'] (k.pattern name (tupleCapture length))).outcome = .ok p ∧
      ∀ (r : Route) (rows : List (List Text)), r.pattern = p → r.delimiter = ['/'] →
        (rows = [] → r.defaults.get? name = none) → (∀ row ∈ rows, IsTuple length row) →
        ∃ path found, r.path ⟨[(name, .list (rows.map tupleValue))]⟩ = .ok path ∧
          ((node r []).matchPath (Text.dropLeading '/' path) .empty .empty).outcome = .ok (some found) ∧
          found.above = [] ∧ found.route = r ∧ found.params.get? name = some (.list (rows.map tupleValue)) := by
  obtain ⟨n, rfl⟩ := Nat.exists_eq_add_of_le' (Nat.le_of_succ_le hlength)
  obtain ⟨p, hp, hcased⟩ := Casing.exists_isCased_tuples hword hk hname n
  refine ⟨p, hp, ?_⟩
  rintro r rows rfl hdelimiter hdefaults hrows
  have hregular := hcased.item.1
  have hvalues : ∀ v ∈ rows.map tupleValue, v.isNull = false ∧ encodeValue v ∈ takenBy (tupleCapture (n + 1)) := by
    rw [List.forall_mem_map, takenBy_of_read (read_tupleCapture n) hregular]
    exact fun row hrow => ⟨rfl, (hrows row hrow).takesAll.mem_language hregular⟩
  have hempty : [] ∉ (k.splitter (tupleExpr n)).language :=
    Casing.nil_not_mem_language_splitter (by rcases hk with rfl | rfl <;> simp [Casing.leading, Casing.trailing]) _
  let items := (rows.map tupleValue).map encodeValue
  have hitems : ∀ x ∈ items, TakesAll (tupleExpr n) x ∧ IsUnslashed x := by
    rw [List.forall_mem_map, List.forall_mem_map]
    exact fun row hrow => ⟨(hrows row hrow).takesAll, (hrows row hrow).isUnslashed⟩
  -- each tuple is taken as a whole, so the run is cut where the tuples end
  have hcuts : Cuts (k.splitter (tupleExpr n)) items (k.run items) :=
    Casing.cuts_run (Casing.slash_of_slashed hk) (fun x hx => k.item_ne_nil (hitems x hx).2.ne_nil)
      fun x hx => (hitems x hx).1
  have hback : items.map Route.roundValue = rows.map tupleValue := by
    rw [List.map_map, List.map_map]
    exact List.map_congr_left fun row hrow => (hrows row hrow).roundValue hlength
  have hends := Casing.isUnslashed_of_slashed hword hk fun x hx => (hitems x hx).2
  have hnone : items = [] → r.defaults.get? name = none := fun hnil => hdefaults (by simpa [items] using hnil)
  obtain ⟨found, hpath, hfound, habove, hroute, hparams⟩ :=
    matchPath_casing ⟨_, hdelimiter ▸ hp⟩ hcased hempty hvalues hcuts hnone rfl hends
  exact ⟨_, found, hpath, hfound, habove, hroute, hback ▸ hparams⟩

/-- The pattern `x[/{v:[^/]+/[^/]+}]*` gives back a tuple with the characters that a path has coded. -/
theorem marked_tuple_is_read_back :
    ∃ r : Route, (RoutePattern.ofText ['/'] "x[/\x7bv:[^/]+/[^/]+\x7d]*".toList).outcome = .ok r.pattern ∧ ∃ path found,
      r.path ⟨[(['v'], .list [.list [.str "a/b".toList, .str ":%".toList]])]⟩ = .ok path ∧
      ((node r []).matchPath (Text.dropLeading '/' path) .empty .empty).outcome = .ok (some found) ∧
      found.params.get? ['v'] = some (.list [.list [.str "a/b".toList, .str ":%".toList]]) := by
  have hword : IsName ['x'] := isName_singleton (by cbv)
  have hname : IsName ['v'] := isName_singleton (by cbv)
  obtain ⟨p, hp, hall⟩ := matchPath_tuples (Nat.le_refl 2) hword hname (.inl rfl)
  have hrows : ∀ row ∈ [["a/b".toList, ":%".toList]], IsTuple 2 row :=
    List.forall_mem_singleton.mpr ⟨rfl, by decide⟩
  let r : Route := { id := 0, delimiter := ['/'], pattern := p }
  obtain ⟨path, found, hpath, hfound, -, -, hparams⟩ := hall r _ rfl rfl (fun _ => rfl) hrows
  exact ⟨r, hp, path, found, hpath, hfound, hparams⟩

end Branch

end Routing
