import Routing.Proofs.Pattern.Source
import Routing.Proofs.Pattern.Spelling

/-!
# Patterns without groups

A pattern without groups is a row of steps, literals and variables with the default capture. A text fits where it has
the steps one after the other, with some value for each variable (`Fits`). Those are the texts that the expression of
the pattern takes (`Fits.mem_language`, `fits_of_mem_ways`).

The delimiter, which the default capture does not take, need not be a slash. But a text has the slashes of its literals
and of its values, no others. So where the values of a text have no slash, those that a match captures have none either,
and a slash between any two variables says what they are (`captured_of_fits`). For the same reason no match is left of
such a text when a file name is cut off after its last slash (`matchWhole_of_cut`).
-/

namespace Routing.Pattern

open Regex

/-- A step of a pattern without groups. -/
inductive Step where
  | literal (text : Text)
  | variable (name : Text)

/-- The tokens of some steps. -/
def tokensOf (delimiter : Text) : List Step → List Token
  | [] => []
  | .literal text :: rest => .literal text :: tokensOf delimiter rest
  | .variable name :: rest => .variable name (defaultCapture delimiter) :: tokensOf delimiter rest

/-- The variables of some steps. -/
def variablesOf : List Step → List Text
  | [] => []
  | .literal _ :: rest => variablesOf rest
  | .variable name :: rest => name :: variablesOf rest

/-- Whether a text has some steps one after the other when their variables have some values. -/
inductive Fits : List Step → List Text → Text → Prop
  | nil : Fits [] [] []
  | literal {text rest vs t} (h : Fits rest vs t) : Fits (.literal text :: rest) vs (text ++ t)
  | var {name rest v vs t} (h : Fits rest vs t) : Fits (.variable name :: rest) (v :: vs) (v ++ t)

theorem namesOf_tokensOf (delimiter : Text) (steps : List Step) :
    namesOf (tokensOf delimiter steps) = variablesOf steps := by
  fun_induction variablesOf steps with
  | case1 => rfl
  | case2 text rest ih => simpa [tokensOf, namesOf, Token.names] using ih
  | case3 name rest ih => simpa [tokensOf, namesOf, Token.names] using ih

theorem varsOf_tokensOf (delimiter : Text) (steps : List Step) :
    varsOf none (tokensOf delimiter steps) = (variablesOf steps).map fun name => ⟨name, none⟩ := by
  fun_induction variablesOf steps with
  | case1 => simp [tokensOf, varsOf]
  | case2 text rest ih => simpa [tokensOf, varsOf] using ih
  | case3 name rest ih => simpa [tokensOf, varsOf] using ih

theorem capturesOf_tokensOf (delimiter : Text) (steps : List Step) :
    ∀ c ∈ capturesOf (tokensOf delimiter steps), c = defaultCapture delimiter := by
  fun_induction variablesOf steps with
  | case1 => simp [tokensOf, capturesOf]
  | case2 text rest ih => simpa [tokensOf, capturesOf] using ih
  | case3 name rest ih => simpa [tokensOf, capturesOf] using ih

/-! ### The expression of the steps -/

/-- The items of some steps, with `index` captures before them. -/
def stepItems (delimiter : Text) (index : Nat) : List Step → List Item
  | [] => []
  | .literal text :: rest => text.map (fun c => ⟨.oneOf (.single c false), .single⟩) ++ stepItems delimiter index rest
  | .variable _ :: rest =>
    ⟨.capture (index + 1) (seqAll [runWithout delimiter]), .single⟩ :: stepItems delimiter (index + 1) rest

/-- The expression of some steps. -/
def stepExpr (delimiter : Text) (index : Nat) (steps : List Step) : Regex :=
  seqAll ((stepItems delimiter index steps).map Item.regex)

/-- The text of the rule of some steps is read as their expression. -/
theorem reads_tokensOf {delimiter : Text} (hdelimiter : delimiter ≠ []) (steps : List Step) (index : Nat) :
    Reads index (regexOf false (tokensOf delimiter steps)) (stepItems delimiter index steps)
      (variablesOf steps).length := by
  have hm : ∀ rest, Mannerless (regexOf false (tokensOf delimiter rest)) := fun rest =>
    mannerless_regexOf (fun c hc => capturesOf_tokensOf delimiter rest c hc ▸ mannerless_defaultCapture delimiter) false
  fun_induction variablesOf steps generalizing index with
  | case1 => simpa [tokensOf, regexOf, stepItems] using reads_nil index
  | case2 text rest ih =>
    rw [tokensOf, regexOf, stepItems, ← Nat.zero_add (variablesOf rest).length]
    exact (reads_escape index text).append (ih index) (hm rest)
  | case3 name rest ih =>
    have henclosed := reads_enclosed (reads_defaultCapture (index + 1) hdelimiter).apart.inside
      (mannerless_cons (by decide) _)
    have hcount : (name :: variablesOf rest).length = 0 + 1 + (variablesOf rest).length := by
      rw [List.length_cons]
      omega
    rw [hcount, tokensOf, regexOf, stepItems, if_neg Bool.false_ne_true]
    exact henclosed.append (ih (index + 1)) (hm rest)

theorem isRegular_stepExpr (delimiter : Text) (index : Nat) (steps : List Step) :
    (stepExpr delimiter index steps).IsRegular := by
  apply isRegular_seqAll
  fun_induction stepItems delimiter index steps with
  | case1 => simp
  | case2 index text rest ih =>
    rw [List.map_append, List.forall_mem_append]
    refine ⟨?_, ih⟩
    simp only [List.mem_map]
    rintro r ⟨-, ⟨c, -, rfl⟩, rfl⟩
    trivial
  | case3 index name rest ih =>
    rw [List.map_cons, List.forall_mem_cons]
    exact ⟨⟨trivial, trivial⟩, ih⟩

theorem captureCount_stepExpr (delimiter : Text) (index : Nat) (steps : List Step) :
    (stepExpr delimiter index steps).captureCount = (variablesOf steps).length := by
  unfold stepExpr
  fun_induction stepItems delimiter index steps with
  | case1 => rfl
  | case2 index text rest ih =>
    rw [List.map_append, List.map_map, captureCount_seqAll_append, ih]
    exact (congrArg (· + _) (captureCount_literal text)).trans (Nat.zero_add _)
  | case3 index name rest ih =>
    rw [variablesOf, List.length_cons, ← ih]
    exact Nat.add_comm 1 _

/-- A text that fits is a word of the expression. -/
theorem Fits.mem_language {delimiter : Text} {steps : List Step} {vs : List Text} {t : Text} (h : Fits steps vs t)
    (hvs : ∀ v ∈ vs, v ∈ withoutAny delimiter) (index : Nat) : t ∈ (stepExpr delimiter index steps).language := by
  induction h generalizing index with
  | nil => exact Language.nil_mem_one
  | @literal text rest vs t h ih =>
    rw [stepExpr, stepItems, List.map_append, List.map_map, language_seqAll_append]
    exact Language.append_mem_mul (language_literal text ▸ Set.mem_singleton text) (ih hvs index)
  | @var name rest v vs t h ih =>
    rw [List.forall_mem_cons] at hvs
    rw [stepExpr, stepItems, List.map_cons, language_seqAll_cons]
    refine Language.append_mem_mul (show v ∈ (seqAll [runWithout delimiter]).language from ?_) (ih hvs.2 (index + 1))
    rw [language_seqAll_singleton, language_runWithout]
    exact hvs.1

/-- A way through the expression takes a text that fits, and captures its values. -/
theorem fits_of_mem_ways {delimiter : Text} {steps : List Step} {index : Nat} {s u : Cursor}
    (hu : u ∈ (stepExpr delimiter index steps).ways s) :
    ∃ vs t, Fits steps vs t ∧ (∀ v ∈ vs, v ∈ withoutAny delimiter) ∧ s.ahead = t ++ u.ahead ∧
      (∀ i v, vs[i]? = some v → u.captured (index + i + 1) = some v) ∧ ∀ j ≤ index, u.captured j = s.captured j := by
  unfold stepExpr at hu
  fun_induction stepItems delimiter index steps generalizing s with
  | case1 =>
    have hus : u = s := by simpa [seqAll, ways] using hu
    exact ⟨[], [], .nil, List.forall_mem_nil _, by rw [hus]; rfl, by simp, by simp [hus]⟩
  | case2 index text rest ih =>
    rw [List.map_append, List.map_map] at hu
    obtain ⟨v, hahead, hcaptures, hu⟩ := mem_ways_literal hu
    obtain ⟨vs, t, hfits, hvs, hrest, hnew, hold⟩ := ih hu
    refine ⟨vs, text ++ t, .literal hfits, hvs, by rw [hahead, hrest, List.append_assoc], hnew, fun j hj => ?_⟩
    rw [hold j hj, Cursor.captured_of_captures hcaptures]
  | case3 index name rest ih =>
    obtain ⟨v, hv, hu⟩ := mem_ways_seq.mp hu
    obtain ⟨w, hw, hahead, hself, hothers⟩ :=
      captured_of_mem_ways (show (seqAll [runWithout delimiter]).IsRegular from ⟨trivial, trivial⟩) rfl hv
    rw [language_seqAll_singleton, language_runWithout] at hw
    obtain ⟨vs, t, hfits, hvs, hrest, hnew, hold⟩ := ih hu
    refine ⟨w :: vs, w ++ t, .var hfits, List.forall_mem_cons.mpr ⟨hw, hvs⟩,
      by rw [hahead, hrest, List.append_assoc], fun i x hi => ?_, fun j hj => ?_⟩
    · cases i with
      | zero =>
        rw [List.getElem?_cons_zero] at hi
        rw [Nat.add_zero, hold _ (Nat.le_refl _), hself, hi]
      | succ i =>
        have hcaptured := hnew i x (by simpa using hi)
        rwa [Nat.add_right_comm index 1 i] at hcaptured
    · rw [hold j (by omega), hothers j (by omega)]

/-! ### The slashes of a text that fits -/

namespace Fits

variable {steps : List Step} {vs ws : List Text} {t u : Text}

/-- Two texts that fit the same steps differ in their slashes by those of the values. -/
theorem count_slash (h : Fits steps vs t) (h' : Fits steps ws u) (hvs : ∀ v ∈ vs, '/' ∉ v) :
    u.count '/' = t.count '/' + (ws.map (List.count '/')).sum := by
  induction h generalizing ws u with
  | nil =>
    cases h'
    rfl
  | literal h ih =>
    cases h' with
    | literal h' => rw [List.count_append, List.count_append, ih h' hvs, Nat.add_assoc]
  | @var name rest v vs t h ih =>
    rw [List.forall_mem_cons] at hvs
    cases h' with
    | var h' =>
      rw [List.count_append, List.count_append, ih h' hvs.2, List.count_eq_zero_of_not_mem hvs.1, List.map_cons,
        List.sum_cons]
      omega

/-- Values without slashes are the only ones of a text, if a slash stands between any two variables. -/
theorem unique (hspaced : Spaced true (tokensOf ['/'] steps)) (h : Fits steps vs t) (h' : Fits steps ws t)
    (hvs : ∀ v ∈ vs, v ∈ without '/') (hws : ∀ w ∈ ws, w ∈ without '/') : vs = ws := by
  have hspells : ∀ {steps : List Step} {vs : List Text} {t : Text}, Fits steps vs t → (∀ v ∈ vs, v ∈ without '/') →
      Spells (withRun (tokensOf ['/'] steps) none) vs t := by
    intro steps vs t h hvs
    induction h with
    | nil => exact .nil
    | literal h ih => exact .literal (ih hvs)
    | var h ih =>
      rw [List.forall_mem_cons] at hvs
      exact .var hvs.1 (ih hvs.2)
  exact Spells.unique hspaced (hspells h hvs) (hspells h' hws) (Or.inl rfl) (List.append_nil t).symm

/-- Whether a text that fits is empty or ends in a slash depends on the steps only, if no value has a slash. -/
theorem ends_iff (h : Fits steps vs t) (h' : Fits steps ws u) (hvs : ∀ v ∈ vs, v ∈ without '/')
    (hws : ∀ w ∈ ws, w ∈ without '/') :
    (t = [] ↔ u = []) ∧ (t.getLast? = some '/' ↔ u.getLast? = some '/') := by
  induction h generalizing ws u with
  | nil =>
    cases h'
    exact ⟨Iff.rfl, Iff.rfl⟩
  | @literal text rest vs t h ih =>
    cases h' with
    | @literal _ _ ws u h' =>
      obtain ⟨hempty, hlast⟩ := ih h' hvs hws
      by_cases ht : t = []
      · rw [ht, hempty.mp ht]
        exact ⟨Iff.rfl, Iff.rfl⟩
      · have hu : u ≠ [] := fun hu => ht (hempty.mpr hu)
        rw [List.getLast?_append_of_ne_nil _ ht, List.getLast?_append_of_ne_nil _ hu]
        exact ⟨by simp [ht, hu], hlast⟩
  | @var name rest v vs t h ih =>
    rw [List.forall_mem_cons] at hvs
    cases h' with
    | @var _ _ w ws u h' =>
      rw [List.forall_mem_cons] at hws
      obtain ⟨hempty, hlast⟩ := ih h' hvs.2 hws.2
      -- a value at the end of a text is not empty and does not end in a slash, whichever it is
      have hneither : ∀ {v : Text}, v ∈ without '/' → v.getLast? ≠ some '/' :=
        fun hv hlast => hv.2 (List.mem_of_getLast? hlast)
      refine ⟨by simp [hvs.1.1, hws.1.1], ?_⟩
      by_cases ht : t = []
      · rw [ht, hempty.mp ht, List.append_nil, List.append_nil]
        exact iff_of_false (hneither hvs.1) (hneither hws.1)
      · have hu : u ≠ [] := fun hu => ht (hempty.mpr hu)
        rw [List.getLast?_append_of_ne_nil _ ht, List.getLast?_append_of_ne_nil _ hu]
        exact hlast

/-- A text that fits has no character that neither the literals nor the values have. -/
theorem not_mem {c : Char} (h : Fits steps vs t) (hliterals : ∀ text, .literal text ∈ steps → c ∉ text)
    (hvs : ∀ v ∈ vs, c ∉ v) : c ∉ t := by
  induction h with
  | nil => exact List.not_mem_nil
  | literal h ih =>
    rw [List.mem_append, not_or]
    exact ⟨hliterals _ List.mem_cons_self, ih (fun text htext => hliterals text (List.mem_cons_of_mem _ htext)) hvs⟩
  | var h ih =>
    rw [List.forall_mem_cons] at hvs
    rw [List.mem_append, not_or]
    exact ⟨hvs.1, ih (fun text htext => hliterals text (List.mem_cons_of_mem _ htext)) hvs.2⟩

/-- A text that fits starts with a slash only if the pattern does. -/
theorem head_ne_slash {delimiter pattern : Text} {p : Tokenized} (hp : tokenize delimiter pattern = .ok p)
    (hsteps : p.tokens = tokensOf delimiter steps) (hhead : pattern.head? ≠ some '/') (h : Fits steps vs t)
    (hvs : ∀ v ∈ vs, v ∈ without '/') : t.head? ≠ some '/' := by
  cases h with
  | nil => nofun
  | literal h =>
    obtain ⟨c, hc, hpattern⟩ := head?_of_tokenize hp hsteps
    rw [List.head?_append, hc]
    rwa [hpattern] at hhead
  | var h =>
    obtain ⟨hne, hslash⟩ := (List.forall_mem_cons.mp hvs).1
    obtain ⟨c, v, rfl⟩ := List.exists_cons_of_ne_nil hne
    rw [List.mem_cons, not_or] at hslash
    simpa using Ne.symm hslash.1

end Fits

/-! ### What a match captures -/

section Match

variable {delimiter : Text} {steps : List Step} {vs : List Text} {t : Text}

/-- What a match of the expression takes, where it may leave a slash at the end. -/
theorem exists_fits_of_mem_ways {u : Cursor} (h : Fits steps vs t) (hvs : ∀ v ∈ vs, v ∈ without '/')
    {rest : Text} (hu : u ∈ (stepExpr delimiter 0 steps).ways (.ofText rest))
    (hend : u.ahead = [] ∨ u.ahead = ['/']) (hcount : rest.count '/' ≤ t.count '/') :
    ∃ ws, Fits steps ws rest ∧ (∀ w ∈ ws, w ∈ without '/') ∧ rest.count '/' = t.count '/' ∧
      ∀ i w, ws[i]? = some w → u.captured (i + 1) = some w := by
  obtain ⟨ws, text, hfits, hws, hahead, hcaptured, -⟩ := fits_of_mem_ways hu
  have hahead : rest = text ++ u.ahead := hahead
  -- the slashes of the literals are all that there are: none is left over, and no value has one
  have hslashes := h.count_slash hfits fun v hv => (hvs v hv).2
  have hnone : u.ahead = [] := by
    refine hend.resolve_right fun hslash => ?_
    rw [hahead, hslash, List.count_append, List.count_singleton_self] at hcount
    omega
  rw [hnone, List.append_nil] at hahead
  subst hahead
  have hsum : (ws.map (List.count '/')).sum = 0 := by omega
  refine ⟨ws, hfits, fun w hw => ⟨(hws w hw).1, ?_⟩, by omega, fun i w hi => ?_⟩
  · rw [← List.count_eq_zero]
    exact List.sum_eq_zero_iff.mp hsum _ (List.mem_map_of_mem hw)
  · rw [← hcaptured i w hi, Nat.zero_add]

/-- A text that fits is matched, and the match captures its values. -/
theorem captured_of_fits (hspaced : Spaced true (tokensOf ['/'] steps)) (h : Fits steps vs t)
    (hvs : ∀ v ∈ vs, v ∈ without '/') (hdelimiter : ∀ v ∈ vs, v ∈ withoutAny delimiter) :
    ∃ found, (seqAll [stepExpr delimiter 0 steps, optionalSlash]).matchWhole t = some found ∧
      ∀ i v, vs[i]? = some v → found.captured (i + 1) = some v := by
  obtain ⟨found, u, hfound, hu, hend, hsame⟩ :=
    exists_matchWhole_of_mem_language (isRegular_stepExpr delimiter 0 steps) (h.mem_language hdelimiter 0)
  obtain ⟨ws, hfits, hws, -, hcaptured⟩ := exists_fits_of_mem_ways h hvs hu hend (Nat.le_refl _)
  obtain rfl := h.unique hspaced hfits hvs hws
  exact ⟨found, hfound, fun i v hi => by rw [hsame, hcaptured i v hi]⟩

/-- What is left of a text that fits without the file name that it ends with is not matched. -/
theorem matchWhole_of_cut (h : Fits steps vs t) (hvs : ∀ v ∈ vs, v ∈ without '/') {before file : Text}
    (hfile : file ≠ []) (hbefore : before = [] ∨ before.getLast? = some '/') (ht : t = before ++ file) :
    (seqAll [stepExpr delimiter 0 steps, optionalSlash]).matchWhole before = none := by
  by_contra hmatch
  obtain ⟨found, hfound⟩ := Option.ne_none_iff_exists'.mp hmatch
  obtain ⟨hway, hrest⟩ := mem_ways_of_matchWhole hfound
  obtain ⟨u, hu, hslash⟩ := mem_ways_seq.mp hway
  have hend : u.ahead = [] ∨ u.ahead = ['/'] := by
    obtain ⟨e, he, hahead⟩ :=
      exists_mem_language (show (seqAll [optionalSlash]).IsRegular from ⟨trivial, trivial⟩) hslash
    rw [hrest, List.append_nil] at hahead
    rwa [language_seqAll_singleton, mem_language_optionalSlash, ← hahead] at he
  -- with what is left of the slashes the rest would fit as well, but then its end would be like that of the text
  have hcount : t.count '/' = before.count '/' + file.count '/' := by rw [ht, List.count_append]
  obtain ⟨ws, hfits, hws, hsame, -⟩ := exists_fits_of_mem_ways h hvs hu hend (by omega)
  obtain ⟨hempty, hlast⟩ := h.ends_iff hfits hvs hws
  rcases hbefore with hbefore | hbefore
  · rw [hempty.mpr hbefore] at ht
    exact hfile (List.append_eq_nil_iff.mp ht.symm).2
  · rw [← hlast, ht, List.getLast?_append_of_ne_nil _ hfile] at hbefore
    have hmem : 0 < file.count '/' := List.count_pos_iff.mpr (List.mem_of_getLast? hbefore)
    omega

end Match

end Routing.Pattern
