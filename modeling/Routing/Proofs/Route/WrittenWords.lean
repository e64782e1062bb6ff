import Routing.Proofs.Mapping
import Routing.Proofs.Pattern.Groups
import Routing.Proofs.Pattern.Spelling
import Routing.Proofs.Route.Writing
import Routing.Proofs.Tree.Growth

/-!
# Written paths are words

The text that a route writes is a word of its tokens, where every variable has a value that its capture takes
(`mem_wordsBy_of_write`). With default captures the route matches it (`accepts_word`), and the path that is made from
it too, unless it starts with a slash (`accepts_path`): a path loses the slashes at its start, and only those of
literal text that a pattern starts with are lost to its expression as well.
-/

namespace Routing

open Pattern

theorem mem_takenBy_of_writeValue {name capture t : Text} {v : Value} (h : writeValue name capture v = .ok t) :
    t ∈ takenBy capture := by
  obtain ⟨r, hr, h⟩ := bind_eq_ok.mp h
  obtain ⟨found, hfound, h⟩ := bind_eq_ok.mp h
  cases found with
  | none => cases h
  | some found =>
    rw [← Except.ok.inj h]
    exact ⟨r, found, readRegex_eq_ok.mp hr, hfound⟩

namespace PathFor

/-- Whether a text is a word, or the empty text where that is allowed. -/
def IsWritten (absentAllowed : Bool) (l : Language Char) (t : Text) : Prop := t ∈ l ∨ absentAllowed = true ∧ t = []

section Rounds

open scoped Computability

variable {l : Language Char} {write : Value → Except RouteError Text} {items : List Value} {suffix : Suffix} {t : Text}

/-- A group that is written once. -/
theorem mem_times_of_isWritten (h : IsWritten suffix.mayBeAbsent l t) : t ∈ suffix.times l := by
  have hstar : l ≤ l∗ := le_kstar
  cases suffix with
  | optional =>
    rcases h with h | ⟨-, rfl⟩
    · exact Or.inr h
    · exact Or.inl Language.nil_mem_one
  | star =>
    rcases h with h | ⟨-, rfl⟩
    · exact hstar h
    · exact Language.nil_mem_kstar l
  | plus =>
    rcases h with h | ⟨hfalse, -⟩
    · exact ⟨t, h, [], Language.nil_mem_kstar l, List.append_nil t⟩
    · cases hfalse

/-- A group that is written once for each of some items. -/
theorem mem_kstar_of_writeEach {absentAllowed : Bool} (hwrite : ∀ item t, write item = .ok t →
    IsWritten absentAllowed l t) (h : writeEach write items = .ok t) : t ∈ l∗ := by
  induction items generalizing t with
  | nil =>
    rw [writeEach, Except.ok.injEq] at h
    rw [← h]
    exact Language.nil_mem_kstar l
  | cons item items ih =>
    obtain ⟨u, hu, h⟩ := bind_eq_ok.mp h
    obtain ⟨v, hv, h⟩ := bind_eq_ok.mp h
    rw [← Except.ok.inj h]
    rcases hwrite item u hu with hmem | ⟨-, rfl⟩
    · rw [← Language.one_add_self_mul_kstar_eq_kstar]
      exact Or.inr ⟨u, hmem, v, ih hv, rfl⟩
    · exact ih hv

theorem mem_times_of_writeEach (hrepeats : suffix.repeats = true)
    (hwrite : ∀ item t, write item = .ok t → IsWritten suffix.mayBeAbsent l t)
    (hitems : suffix.mayBeAbsent = true ∨ items ≠ []) (h : writeEach write items = .ok t) : t ∈ suffix.times l := by
  cases suffix with
  | optional => cases hrepeats
  | star => exact mem_kstar_of_writeEach hwrite h
  | plus =>
    obtain ⟨item, rest, rfl⟩ := List.exists_cons_of_ne_nil (hitems.resolve_left Bool.false_ne_true)
    obtain ⟨u, hu, h⟩ := bind_eq_ok.mp h
    obtain ⟨v, hv, h⟩ := bind_eq_ok.mp h
    rw [← Except.ok.inj h]
    rcases hwrite item u hu with hmem | ⟨hfalse, -⟩
    · exact ⟨u, hmem, v, mem_kstar_of_writeEach hwrite hv, rfl⟩
    · cases hfalse

end Rounds

/-- The text that some tokens write after another one is that text and a word of the tokens, unless a variable has no
value and the tokens may be absent: then nothing is written at all. -/
theorem mem_wordsBy_of_write (w : PathFor) {absentAllowed : Bool} {params : Mapping Value} {before t : Text}
    {ts : List Token} (hts : OnlyRepeatsBind ts) (h : w.write absentAllowed params before ts = .ok t) :
    (∃ u ∈ wordsBy takenBy ts, t = before ++ u) ∨ absentAllowed = true ∧ t = [] := by
  induction ts using tokens_induction generalizing absentAllowed params before t with
  | nil =>
    rw [write, Except.ok.injEq] at h
    rw [wordsBy]
    exact Or.inl ⟨[], Language.nil_mem_one, by rw [h, List.append_nil]⟩
  | literal text rest ih =>
    rw [OnlyRepeatsBind, GroupsAll] at hts
    rw [write] at h
    rw [wordsBy]
    rcases ih hts h with ⟨u, hu, rfl⟩ | habsent
    · exact Or.inl ⟨text ++ u, ⟨text, rfl, u, hu, rfl⟩, by rw [List.append_assoc]⟩
    · exact Or.inr habsent
  | var name capture rest ih =>
    rw [OnlyRepeatsBind, GroupsAll] at hts
    rw [wordsBy]
    have hvalue : ∀ v, (do
        let t ← writeValue name capture v
        w.write absentAllowed params (before ++ t) rest) = .ok t →
        (∃ u ∈ takenBy capture * wordsBy takenBy rest, t = before ++ u) ∨ absentAllowed = true ∧ t = [] := by
      intro v hv
      obtain ⟨x, hx, hv⟩ := bind_eq_ok.mp hv
      rcases ih hts hv with ⟨u, hu, rfl⟩ | habsent
      · exact Or.inl ⟨x ++ u, ⟨x, mem_takenBy_of_writeValue hx, u, hu, rfl⟩, by rw [List.append_assoc]⟩
      · exact Or.inr habsent
    rw [write] at h
    split at h
    · split at h
      · next habsent => exact Or.inr ⟨habsent, (Except.ok.inj h).symm⟩
      · cases h
    · split at h
      · next habsent => exact Or.inr ⟨habsent, (Except.ok.inj h).symm⟩
      · cases h
    · next v _ _ => exact hvalue v h
  | group suffix binds raw children rest ihc ih =>
    rw [OnlyRepeatsBind, GroupsAll] at hts
    obtain ⟨hbinds, hchildren, hrest⟩ := hts
    rw [wordsBy]
    have hround : ∀ params x, w.write suffix.mayBeAbsent params [] children = .ok x →
        IsWritten suffix.mayBeAbsent (wordsBy takenBy children) x := by
      intro params x hx
      rcases ihc hchildren hx with ⟨u, hu, rfl⟩ | habsent
      · exact Or.inl hu
      · exact Or.inr habsent
    -- what the group writes is a word of it
    obtain ⟨x, hx, h⟩ : ∃ x ∈ suffix.times (wordsBy takenBy children),
        w.write absentAllowed params (before ++ x) rest = .ok t := by
      cases binds with
      | none =>
        rw [write] at h
        obtain ⟨x, hx, h⟩ := bind_eq_ok.mp h
        exact ⟨x, mem_times_of_isWritten (hround _ _ hx), h⟩
      | some name =>
        rw [write] at h
        simp only at h
        split at h
        · cases h
        · next hitems =>
          obtain ⟨x, hx, h⟩ := bind_eq_ok.mp h
          refine ⟨x, mem_times_of_writeEach (hbinds rfl) (fun _ => hround _) ?_ hx, h⟩
          cases hsuffix : suffix.mayBeAbsent
          · exact Or.inr (by simpa [hsuffix] using hitems)
          · exact Or.inl rfl
    rcases ih hrest h with ⟨u, hu, rfl⟩ | habsent
    · exact Or.inl ⟨x ++ u, ⟨x, hx, u, hu, rfl⟩, by rw [List.append_assoc]⟩
    · exact Or.inr habsent

/-- What is written for a pattern that is accepted is a word of its tokens: literal text stands for itself, a variable
for any text that its capture takes, and a group for as many words of its tokens as its suffix allows. -/
theorem write_mem_words {delimiter source : Text} {p : RoutePattern}
    (hp : (RoutePattern.ofText delimiter source).outcome = .ok p) (w : PathFor) {params : Mapping Value} {text : Text}
    (h : w.write false params [] p.tokens.tokens = .ok text) : text ∈ wordsBy takenBy p.tokens.tokens := by
  have htokens := (RoutePattern.assign_eq_ok (RoutePattern.ofText_eq_ok hp)).1.tokens
  rcases w.mem_wordsBy_of_write (onlyRepeatsBind_of_tokenize htokens) h with ⟨u, hu, rfl⟩ | ⟨hfalse, -⟩
  · exact hu
  · cases hfalse

/-- The pattern `x[/{v:\d}]*[-{w:\d}]` with two values of `v` and none of `w`. -/
theorem two_rounds_are_a_word :
    ∃ p, (RoutePattern.ofText ['/'] "x[/\x7bv:\\d\x7d]*[-\x7bw:\\d\x7d]".toList).outcome = .ok p ∧
      (PathFor.mk [] []).write false ⟨[(['v'], .list [.str ['1'], .str ['2']])]⟩ [] p.tokens.tokens =
        .ok "x/1/2".toList ∧
      "x/1/2".toList ∈ wordsBy takenBy p.tokens.tokens := by
  have hwritten : (RoutePattern.ofText ['/'] "x[/\x7bv:\\d\x7d]*[-\x7bw:\\d\x7d]".toList).outcome.map (fun p =>
      (PathFor.mk [] []).write false ⟨[(['v'], .list [.str ['1'], .str ['2']])]⟩ [] p.tokens.tokens) =
        .ok (.ok "x/1/2".toList) := by cbv
  obtain ⟨p, hp, h⟩ := map_eq_ok.mp hwritten
  exact ⟨p, hp, h, write_mem_words hp _ h⟩

end PathFor

/-! ### Matching what was written -/

namespace Pattern

theorem head?_of_partsTokens_group {default : Text} {parts : List Part} {suffix : Suffix} {binds : Option Text}
    {raw : Text} {children rest : List Token}
    (h : (partsTokens default parts).1 = .group suffix binds raw children :: rest) :
    (parts.flatMap Part.source).head? = some '[' := by
  induction parts with
  | nil => simp [partsTokens] at h
  | cons p parts ih =>
    cases p with
    | group raw inner suffix => rfl
    | text t =>
      simp only [partsTokens, partTokens] at h
      cases t with
      | nil =>
        have hnil : runTokens default [] [] = [] := by simp [runTokens, literalOf]
        rw [hnil, List.nil_append] at h
        exact ih h
      | cons c t =>
        obtain ⟨token, others, hfirst, -⟩ := runTokens_cons default c t
        have hnone : GroupsAll (fun _ _ _ _ => False) (token :: others) := hfirst ▸ groupsAll_runTokens _ _ _
        rw [hfirst, List.cons_append, List.cons.injEq] at h
        rw [h.1, GroupsAll] at hnone
        exact hnone.1.elim

/-- Where a word of a pattern starts with a slash and the pattern does not, the pattern starts with a group. -/
theorem head?_of_mem_wordsOf {delimiter pattern u : Text} {t : Tokenized} (ht : tokenize delimiter pattern = .ok t)
    (hpattern : pattern.head? ≠ some '/') (hu : u ∈ wordsOf (without '/') t.tokens) (hslash : u.head? = some '/') :
    pattern.head? = some '[' := by
  cases htokens : t.tokens with
  | nil =>
    rw [htokens, wordsOf] at hu
    obtain rfl : u = [] := hu
    cases hslash
  | cons token rest =>
    cases token with
    | literal x =>
      obtain ⟨c, hc, hsame⟩ := head?_of_tokenize ht htokens
      rw [htokens, wordsOf] at hu
      obtain ⟨y, hy, v, -, rfl⟩ := hu
      obtain rfl : y = x := hy
      have hhead : (y ++ v).head? = some c := by rw [List.head?_append, hc, Option.some_or]
      exact absurd (hsame.trans (hhead.symm.trans hslash)) hpattern
    | «variable» name capture =>
      rw [htokens, wordsOf] at hu
      obtain ⟨v, ⟨hne, hv⟩, x, -, rfl⟩ := hu
      obtain ⟨c, v, rfl⟩ := List.exists_cons_of_ne_nil hne
      obtain rfl : c = '/' := Option.some.inj hslash
      exact absurd List.mem_cons_self hv
    | group suffix binds raw children =>
      obtain ⟨parts, hparts, hall⟩ := tokenize_eq_ok ht
      rw [← Part.flatMap_source hparts]
      exact head?_of_partsTokens_group (hall ▸ htokens)

end Pattern

namespace Route

/-- A route with default captures matches the words of its tokens. -/
theorem accepts_word {r : Route} (hr : r.IsMade) (hdelimiter : r.delimiter = ['/'])
    (hcaptures : ∀ c ∈ capturesOf r.pattern.tokens.tokens, c = defaultCapture ['/']) {u : Text}
    (hu : u ∈ wordsOf (without '/') r.pattern.tokens.tokens) :
    ∃ found, sound r.pattern.whole (r.pattern.whole.matchWhole u) = .ok (some found) := by
  have hp := hr.assigned
  rw [hdelimiter] at hp
  have hentry := hp.entry
  rw [hp.regex_eq, read_regexOf hcaptures, Except.ok.injEq] at hentry
  have hregular : r.pattern.whole.IsRegular := by
    rw [hp.whole_eq, ← hentry]
    exact ⟨isRegular_exprOf _ _ _ _, trivial, trivial⟩
  have hword : u ∈ r.pattern.whole.language := by
    rw [hp.whole_eq, ← hentry, language_seqAll_cons, language_exprOf, language_seqAll_singleton]
    exact ⟨u, hu, [], mem_language_optionalSlash.mpr (Or.inl rfl), List.append_nil u⟩
  obtain ⟨found, hfound⟩ := Option.isSome_iff_exists.mp ((Regex.accepts_iff_mem_language hregular).mpr hword)
  refine ⟨found, ?_⟩
  rw [Regex.sound_matchWhole (Regex.hasPossessive_of_isRegular hregular), hfound]

theorem dropLeading_of_path {r : Route} {params : Mapping Value} {path text : Text} (htext : r.text params = .ok text)
    (h : r.path params = .ok path) : Text.dropLeading '/' path = Text.dropLeading '/' text := by
  rw [Route.path, htext, Except.map, Except.ok.injEq] at h
  rw [← h]
  simp only
  split
  · next hempty =>
    rw [List.isEmpty_iff.mp hempty]
    rfl
  · rw [Text.dropLeading, List.dropWhile_cons_of_pos (by rfl), ← Text.dropLeading, Text.dropLeading, Text.dropLeading,
      List.dropWhile_idempotent]

/-- A route with default captures matches the text that it writes. The path is that text with its slashes at the start
made one, so the route matches the path without its slash, unless the text starts with a slash; then its pattern starts
with a group. -/
theorem accepts_path {r : Route} (hr : r.IsMade) (hdelimiter : r.delimiter = ['/'])
    (hcaptures : ∀ c ∈ capturesOf r.pattern.tokens.tokens, c = defaultCapture ['/']) {params : Mapping Value}
    {path : Text} (h : r.path params = .ok path) :
    ∃ text, r.text params = .ok text ∧ Text.dropLeading '/' path = Text.dropLeading '/' text ∧
      (∃ found, sound r.pattern.whole (r.pattern.whole.matchWhole text) = .ok (some found)) ∧
      (text.head? = some '/' → r.pattern.path.head? = some '[') ∧
      (text.head? ≠ some '/' →
        ∃ found, sound r.pattern.whole (r.pattern.whole.matchWhole (Text.dropLeading '/' path)) = .ok (some found)) := by
  have hp := hr.assigned
  rw [hdelimiter] at hp
  cases htext : r.text params with
  | error e =>
    rw [Route.path, htext] at h
    cases h
  | ok text =>
    have hword : text ∈ wordsOf (without '/') r.pattern.tokens.tokens := by
      rcases PathFor.mem_wordsBy_of_write _ (onlyRepeatsBind_of_tokenize hp.tokens) htext with ⟨u, hu, rfl⟩ | ⟨hfalse, -⟩
      · exact wordsBy_le (fun c hc => hcaptures c hc ▸ takenBy_slash.le) hu
      · cases hfalse
    have hdrop := dropLeading_of_path htext h
    refine ⟨text, rfl, hdrop, accepts_word hr hdelimiter hcaptures hword, ?_, fun hhead => ?_⟩
    · exact head?_of_mem_wordsOf hp.tokens hr.head_ne_slash hword
    · rw [hdrop, dropLeading_of_head_ne hhead]
      exact accepts_word hr hdelimiter hcaptures hword

/-- A route with default captures is made by its path if that path has no slash before it and no query names. -/
theorem isMade_of_captures {path : Text} {t : Tokenized} {rule : Rule} {splitters : List (Text × Regex)}
    (ht : tokenize ['/'] path = .ok t) (hrule : t.rule = .ok rule)
    (hd : ∀ c ∈ capturesOf t.tokens, c = defaultCapture ['/'])
    (hsplitters : (splittersOf rule.vars).outcome = .ok splitters)
    (hpath : path = Text.dropLeading '/' (splitSuffix path).1) (hnames : [] = (splitSuffix path).2) :
    ∃ r : Route, r.IsMade ∧ r.delimiter = ['/'] ∧ r.defaults = .empty ∧ r.pattern.path = path ∧ r.pattern.tokens = t ∧
      r.pattern.whole = Regex.seqAll [exprOf '/' false 0 t.tokens, Regex.optionalSlash] := by
  have hassigned := RoutePattern.assigned_of_captures ht hrule hd hsplitters []
  have hmade := RoutePattern.ofText_of_assigned hassigned hpath hnames
  exact ⟨{ id := 0, delimiter := ['/'], pattern := ⟨path, [], t, rule, _, _, splitters⟩ }, ⟨path, hmade⟩, rfl, rfl, rfl,
    rfl, rfl⟩

/-- The route `{v}[-{w}]` matches the path that it writes without a value for `w`. -/
theorem absent_group_is_accepted :
    ∃ r : Route, r.pattern.path = "{v}[-{w}]".toList ∧ r.path ⟨[(['v'], .str ['1'])]⟩ = .ok "/1".toList ∧
      ∃ found, sound r.pattern.whole (r.pattern.whole.matchWhole ['1']) = .ok (some found) := by
  have ht : tokenize ['/'] "{v}[-{w}]".toList = .ok ⟨"{v}[-{w}]".toList,
      [.variable ['v'] (defaultCapture ['/']),
        .group .optional none "-{w}".toList [.literal ['-'], .variable ['w'] (defaultCapture ['/'])]]⟩ := by
    cbv
  have hrule : Tokenized.rule ⟨"{v}[-{w}]".toList, [.variable ['v'] (defaultCapture ['/']),
      .group .optional none "-{w}".toList [.literal ['-'], .variable ['w'] (defaultCapture ['/'])]]⟩ =
      .ok ⟨"([^/]+)(?:-([^/]+))?".toList, [⟨['v'], none⟩, ⟨['w'], none⟩]⟩ := by
    cbv
  obtain ⟨r, hr, hdelimiter, hdefaults, hpattern, htokens, -⟩ :=
    isMade_of_captures ht hrule (by simp [capturesOf]) rfl (by cbv) (by cbv)
  have hpath : r.path ⟨[(['v'], .str ['1'])]⟩ = .ok "/1".toList := by
    have hvalue := @writeValue_str ['v'] ['1'] (List.cons_ne_nil _ _)
    have hcoded : coded ['1'] = ['1'] := by cbv
    rw [Route.path, Route.text, hdefaults, htokens, Mapping.putAll_empty (by decide)]
    simp [PathFor.write, Mapping.get?, Mapping.find, hvalue, hcoded, bind, Except.bind, Suffix.mayBeAbsent]
    rfl
  obtain ⟨text, -, -, -, hslash, hfound⟩ := accepts_path hr hdelimiter (by rw [htokens]; simp [capturesOf]) hpath
  refine ⟨r, hpattern, hpath, hfound fun hhead => ?_⟩
  have hbracket := hslash hhead
  rw [hpattern] at hbracket
  cases hbracket

/-- The route `[/post]/{id}` does not match the path `/post/1` that it writes, without its slash. -/
theorem slash_of_group_is_lost :
    ∃ r : Route, r.IsMade ∧ r.delimiter = ['/'] ∧
      (∀ c ∈ capturesOf r.pattern.tokens.tokens, c = defaultCapture ['/']) ∧
      r.pattern.path = "[/post]/{id}".toList ∧ r.path ⟨[(['i', 'd'], .str ['1'])]⟩ = .ok "/post/1".toList ∧
      sound r.pattern.whole (r.pattern.whole.matchWhole "post/1".toList) = .ok none := by
  have ht : tokenize ['/'] "[/post]/{id}".toList = .ok ⟨"[/post]/{id}".toList,
      [.group .optional none "/post".toList [.literal "/post".toList], .literal ['/'],
        .variable ['i', 'd'] (defaultCapture ['/'])]⟩ := by
    cbv
  have hrule : Tokenized.rule ⟨"[/post]/{id}".toList,
      [.group .optional none "/post".toList [.literal "/post".toList], .literal ['/'],
        .variable ['i', 'd'] (defaultCapture ['/'])]⟩ = .ok ⟨"(?:/post)?/([^/]+)".toList, [⟨['i', 'd'], none⟩]⟩ := by
    cbv
  obtain ⟨r, hr, hdelimiter, hdefaults, hpattern, htokens, hwhole⟩ :=
    isMade_of_captures ht hrule (by simp [capturesOf]) rfl (by cbv) (by cbv)
  refine ⟨r, hr, hdelimiter, by rw [htokens]; simp [capturesOf], hpattern, ?_, ?_⟩
  · have hvalue := @writeValue_str ['i', 'd'] ['1'] (List.cons_ne_nil _ _)
    have hcoded : coded ['1'] = ['1'] := by cbv
    rw [Route.path, Route.text, hdefaults, htokens, Mapping.putAll_empty (by decide)]
    simp [PathFor.write, Mapping.get?, Mapping.find, hvalue, hcoded, bind, Except.bind, Suffix.mayBeAbsent]
    rfl
  · rw [hwhole]
    cbv

end Route

end Routing
