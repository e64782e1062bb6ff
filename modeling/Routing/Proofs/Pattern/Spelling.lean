import Routing.Proofs.Pattern.Words

/-!
# Patterns that are read back

A pattern is spelled with a text for each of its captures (`Spells`). A match of its expression finds such texts
(`spells_of_mem_ways`), and where a slash stands between any two variables, a text is spelled in one way only
(`Spells.unique`): a variable ends where the first slash after it says so. So a match finds the texts that the path
was spelled with (`captured_of_matchWhole`).
-/

namespace Routing.Pattern

open scoped Computability

/-- The group `[/{name}]*`. -/
def runToken (name : Text) : Token :=
  .group .star (some name) ('/' :: '\x7b' :: name ++ ['\x7d'])
    [.literal ['/'], .variable name (defaultCapture ['/'])]

/-- Some tokens with such a group as the last one perhaps. -/
def withRun (steps : List Token) (last : Option Text) : List Token := steps ++ last.toList.map runToken

/-- Whether some tokens are literals and variables with default captures, and a slash stands between any two
variables. The flag tells whether a variable may come before the next slash. -/
inductive Spaced : Bool → List Token → Prop
  | nil {free} : Spaced free []
  | literal {free text rest} (h : Spaced (free || text.contains '/') rest) : Spaced free (.literal text :: rest)
  | var {name rest} (h : Spaced false rest) : Spaced true (.variable name (defaultCapture ['/']) :: rest)

/-- The text of a repeated group. -/
def runText (items : List Text) : Text := items.flatMap ('/' :: ·)

/-- Whether some tokens are spelled as a text when their captures are some texts. -/
inductive Spells : List Token → List Text → Text → Prop
  | nil : Spells [] [] []
  | literal {text rest vs t} (h : Spells rest vs t) : Spells (.literal text :: rest) vs (text ++ t)
  | var {name capture v rest vs t} (hv : v ∈ without '/') (h : Spells rest vs t) :
    Spells (.variable name capture :: rest) (v :: vs) (v ++ t)
  | run {name items} (hitems : ∀ v ∈ items, v ∈ without '/') : Spells [runToken name] [runText items] (runText items)

theorem withRun_cons (token : Token) (steps : List Token) (last : Option Text) :
    withRun (token :: steps) last = token :: withRun steps last := rfl

/-! ### Spelled texts are words -/

theorem wordsOf_item (values : Language Char) (name capture : Text) :
    wordsOf values [.literal ['/'], .variable name capture] = {['/']} * values := by
  rw [wordsOf, wordsOf, wordsOf, mul_one]

theorem mem_item {l : Language Char} {v : Text} : v ∈ ({['/']} : Language Char) * l ↔ ∃ x ∈ l, v = '/' :: x := by
  rw [Language.mem_mul]
  constructor
  · rintro ⟨a, ha, x, hx, rfl⟩
    rw [Set.mem_singleton_iff.mp ha]
    exact ⟨x, hx, rfl⟩
  · rintro ⟨x, hx, rfl⟩
    exact ⟨['/'], rfl, x, hx, rfl⟩

theorem mem_items {l : Language Char} {v : Text} :
    v ∈ (({['/']} : Language Char) * l)∗ ↔ ∃ items : List Text, (∀ x ∈ items, x ∈ l) ∧ v = runText items := by
  rw [Language.mem_kstar]
  constructor
  · rintro ⟨rounds, rfl, hall⟩
    induction rounds with
    | nil => exact ⟨[], by simp, rfl⟩
    | cons round rounds ih =>
      rw [List.forall_mem_cons] at hall
      obtain ⟨x, hx, hround⟩ := mem_item.mp hall.1
      obtain ⟨items, hitems, hrun⟩ := ih hall.2
      refine ⟨x :: items, List.forall_mem_cons.mpr ⟨hx, hitems⟩, ?_⟩
      rw [List.flatten_cons, hround, hrun]
      rfl
  · rintro ⟨items, hitems, rfl⟩
    refine ⟨items.map ('/' :: ·), by rw [runText, List.flatMap_def], ?_⟩
    intro round hround
    obtain ⟨x, hx, rfl⟩ := List.mem_map.mp hround
    exact mem_item.mpr ⟨x, hitems x hx, rfl⟩

theorem Spells.mem_wordsOf {ts : List Token} {vs : List Text} {t : Text} (h : Spells ts vs t) :
    t ∈ wordsOf (without '/') ts := by
  induction h with
  | nil =>
    rw [wordsOf]
    exact Language.nil_mem_one
  | literal h ih =>
    rw [wordsOf]
    exact Language.append_mem_mul (Set.mem_singleton _) ih
  | var hv h ih =>
    rw [wordsOf]
    exact Language.append_mem_mul hv ih
  | run hitems =>
    rw [runToken, wordsOf, wordsOf, mul_one, Suffix.times, wordsOf_item]
    exact mem_items.mpr ⟨_, hitems, rfl⟩

/-! ### A text is spelled in one way -/

/-- The text before the first slash. -/
def front (t : Text) : Text := t.takeWhile (· != '/')

theorem front_append {v : Text} (h : '/' ∉ v) (t : Text) : front (v ++ t) = v ++ front t := by
  apply List.takeWhile_append_of_pos
  intro c hc
  rw [bne_iff_ne]
  rintro rfl
  exact h hc

theorem front_append_of_mem {v : Text} (h : '/' ∈ v) (t : Text) : front (v ++ t) = front v := by
  obtain ⟨before, after, rfl, hbefore⟩ := List.eq_append_cons_of_mem h
  rw [List.append_assoc, List.cons_append, front_append hbefore, front_append hbefore]
  rfl

theorem front_runText (items : List Text) {e : Text} (he : front e = []) : front (runText items ++ e) = [] := by
  cases items with
  | nil => exact he
  | cons v items => rfl

theorem runText_ne {items : List Text} (h : ∀ v ∈ items, v ∈ without '/') (u : Text) : runText items ≠ u ++ ['/'] := by
  intro heq
  rcases List.eq_nil_or_concat' items with rfl | ⟨items, v, rfl⟩
  · simp [runText] at heq
  · obtain ⟨hne, hslash⟩ := h v (by simp)
    obtain ⟨w, c, rfl⟩ := (List.eq_nil_or_concat' v).resolve_left hne
    have hsplit : runText (items ++ [w ++ [c]]) = (runText items ++ '/' :: w) ++ [c] := by simp [runText]
    rw [hsplit] at heq
    have hc : c = '/' := by simpa using (List.append_inj_right' heq rfl)
    exact hslash (by simp [hc])

section Unique

variable {free : Bool} {steps : List Token} {last : Option Text} {vs ws : List Text} {t u e : Text}

/-- What comes before the first slash is the same however some tokens are spelled, if no variable does. -/
theorem Spells.front_eq (hsteps : Spaced false steps) (h : Spells (withRun steps last) vs t)
    (h' : Spells (withRun steps last) ws u) (he : front e = []) : front t = front (u ++ e) := by
  -- the flag stays down until a literal with a slash, and what comes after that is not in front
  generalize hfree : false = free at hsteps
  induction hsteps generalizing vs ws t u with
  | nil =>
    cases last with
    | none =>
      cases h
      cases h'
      rw [List.nil_append, he]
      rfl
    | some name =>
      cases h with
      | run =>
        cases h'
        rw [front_runText _ he, ← List.append_nil (runText _), front_runText _ rfl]
  | @literal free text rest hrest ih =>
    rw [withRun_cons] at h h'
    cases h with
    | literal h =>
      cases h' with
      | literal h' =>
        rw [List.append_assoc]
        by_cases hslash : '/' ∈ text
        · rw [front_append_of_mem hslash, front_append_of_mem hslash]
        · have hnone : false = (free || text.contains '/') := by simpa [← hfree] using hslash
          rw [front_append hslash, front_append hslash, ih h h' hnone]
  | var hrest ih => cases hfree

/-- A text with a slash at its end, or without, is spelled in one way. -/
theorem Spells.unique (hsteps : Spaced free steps) (h : Spells (withRun steps last) vs t)
    (h' : Spells (withRun steps last) ws u) (he : e = [] ∨ e = ['/']) (heq : t = u ++ e) : vs = ws := by
  induction hsteps generalizing vs ws t u with
  | nil =>
    cases last with
    | none =>
      cases h
      cases h'
      rfl
    | some name =>
      cases h with
      | run hitems =>
        cases h'
        rcases he with rfl | rfl
        · rw [heq, List.append_nil]
        · exact absurd heq (runText_ne hitems _)
  | literal hrest ih =>
    rw [withRun_cons] at h h'
    cases h with
    | literal h =>
      cases h' with
      | literal h' =>
        rw [List.append_assoc] at heq
        exact ih h h' (List.append_cancel_left heq)
  | var hrest ih =>
    rw [withRun_cons] at h h'
    cases h with
    | var hv h =>
      cases h' with
      | var hw h' =>
        rw [List.append_assoc] at heq
        -- both values end where the front of what is left does
        have hfront := congrArg front heq
        have hstem := Spells.front_eq (e := e) hrest h h' (by rcases he with rfl | rfl <;> rfl)
        rw [front_append hv.2, front_append hw.2, ← hstem] at hfront
        have hsame := List.append_cancel_right hfront
        rw [hsame] at heq ⊢
        rw [ih h h' (List.append_cancel_left heq)]

end Unique

/-! ### What a match captures -/

theorem isRun_runToken (name : Text) :
    isRun false .star [.literal ['/'], .variable name (defaultCapture ['/'])] = true := rfl

/-- The expression that a repeated group captures. -/
def runBody (index : Nat) (name : Text) : Regex :=
  Regex.seqAll [Suffix.star.loop (exprOf '/' true index [.literal ['/'], .variable name (defaultCapture ['/'])])]

theorem exprOf_runToken (index : Nat) (name : Text) :
    exprOf '/' false index [runToken name] = Regex.seqAll [.capture (index + 1) (runBody (index + 1) name)] := by
  simp [exprOf, runToken, itemsOf, isRun_runToken, runBody]

theorem isRegular_runBody (index : Nat) (name : Text) : (runBody index name).IsRegular :=
  ⟨isRegular_exprOf _ _ _ _, trivial⟩

theorem captureCount_runBody (index : Nat) (name : Text) : (runBody index name).captureCount = 0 := by
  simp [runBody, exprOf, itemsOf, runOf, Regex.seqAll, Regex.captureCount, Suffix.loop]

theorem mem_language_runBody {index : Nat} {name v : Text} (h : v ∈ (runBody index name).language) :
    ∃ items : List Text, (∀ x ∈ items, x ∈ without '/') ∧ v = runText items := by
  rw [runBody, language_seqAll_singleton, language_suffix_loop, language_exprOf, wordsOf_item] at h
  exact mem_items.mp h

theorem captureCount_literal (text : Text) :
    (Regex.seqAll (text.map fun c => .oneOf (.single c false))).captureCount = 0 := by
  induction text with
  | nil => rfl
  | cons c text ih => simpa [Regex.seqAll, Regex.captureCount] using ih

/-- A way through the expression of a literal and more takes the text of the literal first, without any captures. -/
theorem mem_ways_literal {text : Text} {more : List Regex} {s u : Regex.Cursor}
    (h : u ∈ (Regex.seqAll ((text.map fun c => .oneOf (.single c false)) ++ more)).ways s) :
    ∃ v, s.ahead = text ++ v.ahead ∧ v.captures = s.captures ∧ u ∈ (Regex.seqAll more).ways v := by
  obtain ⟨v, hv, hu⟩ := Regex.mem_ways_seqAll_append.mp h
  obtain ⟨w, hw, hahead⟩ := Regex.exists_mem_language (isRegular_literal text) hv
  rw [language_literal] at hw
  rw [Set.mem_singleton_iff.mp hw] at hahead
  exact ⟨v, hahead, Regex.captures_eq_of_mem_ways (isRegular_literal text) (captureCount_literal text) hv, hu⟩

theorem mem_ways_variable {index : Nat} {name capture : Text} {rest : List Token} {s u : Regex.Cursor}
    (h : u ∈ (exprOf '/' false index (.variable name capture :: rest)).ways s) :
    ∃ v, ∃ w ∈ without '/', s.ahead = w ++ v.ahead ∧ v.captured (index + 1) = some w ∧
      (∀ other, index + 1 ≠ other → v.captured other = s.captured other) ∧
      u ∈ (exprOf '/' false (index + 1) rest).ways v := by
  rw [exprOf, itemsOf] at h
  obtain ⟨v, hv, hu⟩ := Regex.mem_ways_seq.mp h
  have hregular : (Regex.seqAll [runOf '/']).IsRegular := ⟨trivial, trivial⟩
  obtain ⟨w, hw, hahead, hself, hothers⟩ := Regex.captured_of_mem_ways hregular rfl hv
  rw [language_seqAll_singleton, language_runOf] at hw
  exact ⟨v, w, hw, hahead, hself, hothers, hu⟩

/-- A way through the expression of some tokens spells them with what it captures. -/
theorem spells_of_mem_ways {free : Bool} {steps : List Token} (hsteps : Spaced free steps) {last : Option Text}
    {index : Nat} {s u : Regex.Cursor} (hu : u ∈ (exprOf '/' false index (withRun steps last)).ways s) :
    ∃ vs t, Spells (withRun steps last) vs t ∧ s.ahead = t ++ u.ahead ∧
      (∀ i v, vs[i]? = some v → u.captured (index + i + 1) = some v) ∧
      ∀ j ≤ index, u.captured j = s.captured j := by
  induction hsteps generalizing index s with
  | nil =>
    cases last with
    | none =>
      have hus : u = s := by simpa [withRun, exprOf, itemsOf, Regex.seqAll, Regex.ways] using hu
      exact ⟨[], [], .nil, by rw [hus]; rfl, by simp, by simp [hus]⟩
    | some name =>
      rw [withRun, List.nil_append, Option.toList_some, List.map_singleton, exprOf_runToken] at hu
      obtain ⟨v, hv, hempty⟩ := Regex.mem_ways_seq.mp hu
      have huv : u = v := by simpa [Regex.ways] using hempty
      obtain ⟨w, hw, hahead, hself, hothers⟩ :=
        Regex.captured_of_mem_ways (isRegular_runBody _ name) (captureCount_runBody _ name) hv
      obtain ⟨items, hitems, rfl⟩ := mem_language_runBody hw
      rw [huv]
      refine ⟨[runText items], _, .run hitems, hahead, fun i v hi => ?_, fun j hj => hothers j (by omega)⟩
      obtain ⟨rfl, rfl⟩ : i = 0 ∧ runText items = v := by simpa [List.getElem?_singleton] using hi
      exact hself
  | @literal free text steps hsteps ih =>
    rw [withRun_cons] at hu ⊢
    rw [exprOf, itemsOf, List.map_append, List.map_map] at hu
    obtain ⟨v, hahead, hcaptures, hu⟩ := mem_ways_literal hu
    obtain ⟨vs, t, hspells, hrest, hnew, hold⟩ := ih hu
    refine ⟨vs, text ++ t, .literal hspells, by rw [hahead, hrest, List.append_assoc], hnew, ?_⟩
    intro j hj
    rw [hold j hj, Regex.Cursor.captured_of_captures hcaptures]
  | var hsteps ih =>
    rw [withRun_cons] at hu ⊢
    obtain ⟨v, w, hw, hahead, hself, hothers, hu⟩ := mem_ways_variable hu
    obtain ⟨vs, t, hspells, hrest, hnew, hold⟩ := ih hu
    refine ⟨w :: vs, w ++ t, .var hw hspells, by rw [hahead, hrest, List.append_assoc], ?_, ?_⟩
    · intro i x hi
      cases i with
      | zero =>
        rw [List.getElem?_cons_zero] at hi
        rw [Nat.add_zero, hold _ (Nat.le_refl _), hself, hi]
      | succ i =>
        have hcaptured := hnew i x (by simpa using hi)
        rwa [Nat.add_right_comm index 1 i] at hcaptured
    · intro j hj
      rw [hold j (by omega), hothers j (by omega)]

theorem mem_language_optionalSlash {e : Text} : e ∈ Regex.optionalSlash.language ↔ e = [] ∨ e = ['/'] := by
  have hslash : (Regex.oneOf ⟨[.range 47 47], false, false⟩).language = {['/']} := by
    rw [← language_literal ['/']]
    exact (language_seqAll_singleton _).symm
  rw [Regex.optionalSlash, Regex.language_loop, pow_zero, one_mul, hslash]
  show e ∈ (1 + {['/']} : Language Char) ^ 1 ↔ _
  rw [pow_one]
  rfl

/-- A word of an expression is matched where a slash may follow it: the expression takes all of it, or all but a last
slash, and the match has its captures. -/
theorem exists_matchWhole_of_mem_language {entry : Regex} (hregular : entry.IsRegular) {t : Text}
    (ht : t ∈ entry.language) :
    ∃ found u, (Regex.seqAll [entry, Regex.optionalSlash]).matchWhole t = some found ∧ u ∈ entry.ways (.ofText t) ∧
      (u.ahead = [] ∨ u.ahead = ['/']) ∧ ∀ index, found.captured index = u.captured index := by
  have hslashRegular : (Regex.seqAll [Regex.optionalSlash]).IsRegular := ⟨trivial, trivial⟩
  have hword : t ∈ (Regex.seqAll [entry, Regex.optionalSlash]).language := by
    rw [language_seqAll_cons, language_seqAll_singleton]
    exact ⟨t, ht, [], mem_language_optionalSlash.mpr (Or.inl rfl), List.append_nil t⟩
  have hwhole : (Regex.seqAll [entry, Regex.optionalSlash]).IsRegular := ⟨hregular, hslashRegular⟩
  obtain ⟨found, hfound⟩ := Option.isSome_iff_exists.mp ((Regex.accepts_iff_mem_language hwhole).mpr hword)
  obtain ⟨hway, hend⟩ := Regex.mem_ways_of_matchWhole hfound
  obtain ⟨u, hu, hslash⟩ := Regex.mem_ways_seq.mp hway
  obtain ⟨e, he, hahead⟩ := Regex.exists_mem_language hslashRegular hslash
  rw [hend, List.append_nil] at hahead
  rw [language_seqAll_singleton, mem_language_optionalSlash, ← hahead] at he
  have hsame := Regex.captures_eq_of_mem_ways hslashRegular rfl hslash
  exact ⟨found, u, hfound, hu, he, Regex.Cursor.captured_of_captures hsame⟩

/-- A text that the tokens are spelled as is matched, and the match captures what they were spelled with. -/
theorem captured_of_matchWhole {steps : List Token} (hsteps : Spaced true steps) {last : Option Text} {vs : List Text}
    {t : Text} (h : Spells (withRun steps last) vs t) :
    ∃ found, (Regex.seqAll [exprOf '/' false 0 (withRun steps last), Regex.optionalSlash]).matchWhole t = some found ∧
      ∀ i v, vs[i]? = some v → found.captured (i + 1) = some v := by
  have hword : t ∈ (exprOf '/' false 0 (withRun steps last)).language := by
    rw [language_exprOf]
    exact h.mem_wordsOf
  obtain ⟨found, u, hfound, hu, hend, hsame⟩ := exists_matchWhole_of_mem_language (isRegular_exprOf _ _ _ _) hword
  obtain ⟨ws, text, hspells, hahead, hcaptured, -⟩ := spells_of_mem_ways hsteps hu
  obtain rfl : vs = ws := Spells.unique hsteps h hspells hend hahead
  refine ⟨found, hfound, fun i v hi => ?_⟩
  rw [hsame, ← hcaptured i v hi, Nat.zero_add]

end Routing.Pattern
