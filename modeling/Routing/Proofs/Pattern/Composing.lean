import Routing.Proofs.Pattern.Filling
import Routing.Proofs.Pattern.Rounds
import Routing.Proofs.Pattern.Source

/-!
# Texts composed of captured texts

A text is composed of the literals of some tokens and of a text for each variable that is there (`Composes`). A match of
their expression says which ones these are: it composes the path of what it captures (`Realizes.composes`). There may be
more than one way to compose a text, so another text that is composed of the same parts need not be matched with them.
It is where there is no other way (`ReadsOnce`).

Captures are written without captures of their own here, and mean inside of a repeated group what they mean by
themselves.
-/

namespace Routing.Pattern

open Regex

/-- Whether some tokens compose a text when their variables have some texts. A variable of a repeated group has the text
of all its rounds, and one of a group that is absent has none. -/
inductive Composes (σ : Text → Option Text) : List Token → Text → Prop
  | nil : Composes σ [] []
  | literal {text rest t} (hrest : Composes σ rest t) : Composes σ (.literal text :: rest) (text ++ t)
  | var {name c v rest t} (hσ : σ name = some v) (hv : v ∈ takenBy c) (hrest : Composes σ rest t) :
    Composes σ (.variable name c :: rest) (v ++ t)
  | rounds {suffix binds raw children v rest t} (hrepeats : suffix.repeats = true)
    (hσ : ∀ name ∈ namesOf children, σ name = some v) (hv : v ∈ suffix.times (wordsBy takenBy children))
    (hrest : Composes σ rest t) : Composes σ (.group suffix binds raw children :: rest) (v ++ t)
  | absent {binds raw children rest t} (hσ : ∀ name ∈ namesOf children, σ name = none) (hrest : Composes σ rest t) :
    Composes σ (.group .optional binds raw children :: rest) t
  | present {binds raw children u rest t} (hinner : Composes σ children u) (hrest : Composes σ rest t) :
    Composes σ (.group .optional binds raw children :: rest) (u ++ t)

/-- Whether a text, and what a slash at its end leaves of it, is composed of some tokens in one way. -/
def ReadsOnce (ts : List Token) (t : Text) : Prop :=
  ∀ σ τ u, Composes σ ts t → Composes τ ts u → (t = u ∨ t = u ++ ['/']) →
    ∀ name ∈ namesOf ts, (τ name).getD [] = (σ name).getD []

namespace Composes

variable {σ τ : Text → Option Text} {ts : List Token} {t : Text}

/-- Only the texts of the variables matter. -/
theorem congr (h : Composes σ ts t) (hsame : ∀ name ∈ namesOf ts, τ name = σ name) : Composes τ ts t := by
  induction h with
  | nil => exact .nil
  | literal _ ih => exact .literal (ih (by simpa [namesOf, Token.names] using hsame))
  | var hσ hv _ ih =>
    simp only [namesOf, Token.names, List.singleton_append, List.forall_mem_cons] at hsame
    exact .var (hsame.1.trans hσ) hv (ih hsame.2)
  | rounds hrepeats hσ hv _ ih =>
    simp only [namesOf, Token.names, List.forall_mem_append] at hsame
    exact .rounds hrepeats (fun name hname => (hsame.1 name hname).trans (hσ name hname)) hv (ih hsame.2)
  | absent hσ _ ih =>
    simp only [namesOf, Token.names, List.forall_mem_append] at hsame
    exact .absent (fun name hname => (hsame.1 name hname).trans (hσ name hname)) (ih hsame.2)
  | present _ _ ihinner ih =>
    simp only [namesOf, Token.names, List.forall_mem_append] at hsame
    exact .present (ihinner hsame.1) (ih hsame.2)

theorem append {rest : List Token} {u : Text} (h : Composes σ ts t) (hrest : Composes σ rest u) :
    Composes σ (ts ++ rest) (t ++ u) := by
  induction h with
  | nil => exact hrest
  | literal _ ih =>
    rw [List.append_assoc]
    exact .literal ih
  | var hσ hv _ ih =>
    rw [List.append_assoc]
    exact .var hσ hv ih
  | rounds hrepeats hσ hv _ ih =>
    rw [List.append_assoc]
    exact .rounds hrepeats hσ hv ih
  | absent hσ _ ih => exact .absent hσ ih
  | present hinner _ _ ih =>
    rw [List.append_assoc]
    exact .present hinner ih

theorem mem_wordsBy (h : Composes σ ts t) : t ∈ wordsBy takenBy ts := by
  induction h with
  | nil =>
    rw [wordsBy]
    exact Language.nil_mem_one
  | literal _ ih =>
    rw [wordsBy]
    exact Language.append_mem_mul (Set.mem_singleton _) ih
  | var _ hv _ ih =>
    rw [wordsBy]
    exact Language.append_mem_mul hv ih
  | rounds _ _ hv _ ih =>
    rw [wordsBy]
    exact Language.append_mem_mul hv ih
  | absent _ _ ih =>
    rw [wordsBy]
    exact Language.append_mem_mul (a := []) (Or.inl Language.nil_mem_one) ih
  | present _ _ ihinner ih =>
    rw [wordsBy]
    exact Language.append_mem_mul (Or.inr ihinner) ih

end Composes

section Composes

variable {σ : Text → Option Text} {rest : List Token} {t : Text}

theorem composes_nil : Composes σ [] t ↔ t = [] :=
  ⟨fun h => by cases h; rfl, fun h => h ▸ .nil⟩

theorem composes_literal {text : Text} :
    Composes σ (.literal text :: rest) t ↔ ∃ u, t = text ++ u ∧ Composes σ rest u := by
  constructor
  · rintro (- | ⟨h⟩)
    exact ⟨_, rfl, h⟩
  · rintro ⟨u, rfl, h⟩
    exact .literal h

theorem composes_variable {name c : Text} : Composes σ (.variable name c :: rest) t ↔
    ∃ v u, t = v ++ u ∧ σ name = some v ∧ v ∈ takenBy c ∧ Composes σ rest u := by
  constructor
  · intro h
    cases h with
    | var hσ hv hrest => exact ⟨_, _, rfl, hσ, hv, hrest⟩
  · rintro ⟨v, u, rfl, hσ, hv, hrest⟩
    exact .var hσ hv hrest

theorem composes_rounds {suffix : Suffix} {binds : Option Text} {raw : Text} {children : List Token}
    (hrepeats : suffix.repeats = true) : Composes σ (.group suffix binds raw children :: rest) t ↔
      ∃ v u, t = v ++ u ∧ (∀ name ∈ namesOf children, σ name = some v) ∧ v ∈ suffix.times (wordsBy takenBy children) ∧
        Composes σ rest u := by
  constructor
  · intro h
    cases h with
    | rounds _ hσ hv hrest => exact ⟨_, _, rfl, hσ, hv, hrest⟩
    | absent => cases hrepeats
    | present => cases hrepeats
  · rintro ⟨v, u, rfl, hσ, hv, hrest⟩
    exact .rounds hrepeats hσ hv hrest

end Composes

/-! ### Variables and their captures -/

section BoundOf

variable {ts : List Token} {v : Variable} {c : Text}

theorem map_snd_boundOf (inside : Option Text) (ts : List Token) :
    (boundOf inside ts).map Prod.snd = capturesOf ts := by
  induction ts using tokens_induction generalizing inside with
  | nil => simp [boundOf, capturesOf]
  | literal text rest ih => simpa [boundOf, capturesOf] using ih inside
  | var name c rest ih => simpa [boundOf, capturesOf] using ih inside
  | group suffix binds raw children rest ihc ih => simp [boundOf, capturesOf, ihc, ih]

theorem boundOf_append (inside : Option Text) (a b : List Token) :
    boundOf inside (a ++ b) = boundOf inside a ++ boundOf inside b := by
  induction a with
  | nil => simp [boundOf]
  | cons token a ih => cases token <;> simp [boundOf, ih]

theorem mem_capturesOf {inside : Option Text} (h : (v, c) ∈ boundOf inside ts) : c ∈ capturesOf ts := by
  rw [← map_snd_boundOf inside]
  exact List.mem_map_of_mem h

theorem mem_namesOf {inside : Option Text} {b : Variable × Text} (h : b ∈ boundOf inside ts) :
    b.1.name ∈ namesOf ts := by
  rw [← map_name_varsOf inside, ← map_fst_boundOf]
  exact List.mem_map_of_mem (List.mem_map_of_mem h)

theorem exists_mem_boundOf (inside : Option Text) {name : Text} (h : name ∈ namesOf ts) :
    ∃ b ∈ boundOf inside ts, b.1.name = name := by
  rw [← map_name_varsOf inside, ← map_fst_boundOf, List.map_map] at h
  exact List.mem_map.mp h

theorem boundOf_of_namesOf (inside : Option Text) (h : namesOf ts = []) : boundOf inside ts = [] := by
  rw [← List.length_eq_zero_iff, length_boundOf, h, List.length_nil]

/-- In a repeated group the variables are repeated. -/
theorem boundOf_some (raw : Text) (inside : Option Text) (ts : List Token) :
    boundOf (some raw) ts = (boundOf inside ts).map fun b => (⟨b.1.name, some raw⟩, b.2) := by
  induction ts using tokens_induction generalizing inside with
  | nil => simp [boundOf]
  | literal text rest ih => simpa [boundOf] using ih inside
  | var name c rest ih => simpa [boundOf] using ih inside
  | group suffix binds around children rest ihc ih =>
    have hwithin : within (some raw) suffix around = some raw := by simp [within]
    rw [boundOf, boundOf, hwithin, List.map_append, ← ihc, ← ih]

theorem repeated_of_mem_boundOf {raw : Text} {b : Variable × Text} (h : b ∈ boundOf (some raw) ts) :
    b.1.repeated = some raw := by
  rw [boundOf_some raw none] at h
  obtain ⟨_, -, rfl⟩ := List.mem_map.mp h
  rfl

theorem namesOf_of_boundOf {inside : Option Text} (h : boundOf inside ts = [(v, c)]) : namesOf ts = [v.name] := by
  rw [← map_name_varsOf inside, ← map_fst_boundOf, h, List.map_singleton, List.map_singleton]

theorem capturesOf_of_boundOf {inside : Option Text} (h : boundOf inside ts = [(v, c)]) : capturesOf ts = [c] := by
  rw [← map_snd_boundOf inside, h, List.map_singleton]

end BoundOf

/-! ### Items that realize tokens -/

/-- Whether an expression takes the words of a language and captures nothing. -/
structure Takes (e : Regex) (l : Language Char) : Prop where
  regular : e.IsRegular
  captures : e.captureCount = 0
  language : e.language = l

/-- An expression that takes the words of a language takes them again in a group. -/
theorem Takes.times {e : Regex} {l : Language Char} (h : Takes e l) (suffix : Suffix) :
    Takes (suffix.loop e) (suffix.times l) :=
  ⟨h.regular, h.captures, by rw [language_suffix_loop, h.language]⟩

theorem Takes.single {e : Regex} {l : Language Char} (h : Takes e l) : Takes (seqAll [e]) l :=
  ⟨⟨h.regular, trivial⟩, h.captures, (language_seqAll_singleton e).trans h.language⟩

/-- Whether some items take what some tokens say, with one capture for each variable. There are `index` captures before
them. -/
inductive Realizes : Nat → List Token → List Item → Prop
  | nil {index} : Realizes index [] []
  | literal {index text rest items} (hrest : Realizes index rest items) :
    Realizes index (.literal text :: rest) (text.map (fun c => ⟨.oneOf (.single c false), .single⟩) ++ items)
  | var {index name c e rest items} (hread : Regex.read c = .ok e) (he : Takes e (takenBy c))
    (hrest : Realizes (index + 1) rest items) :
    Realizes index (.variable name c :: rest) (⟨.capture (index + 1) e, .single⟩ :: items)
  | run {index suffix binds raw children body rest items} (hrepeats : suffix.repeats = true)
    (hone : (namesOf children).length = 1) (hbody : Takes body (suffix.times (wordsBy takenBy children)))
    (hrest : Realizes (index + 1) rest items) :
    Realizes index (.group suffix binds raw children :: rest) (⟨.capture (index + 1) body, .single⟩ :: items)
  | repeated {index suffix binds raw children body rest items} (hrepeats : suffix.repeats = true)
    (hnone : namesOf children = []) (hbody : Takes body (suffix.times (wordsBy takenBy children)))
    (hrest : Realizes index rest items) :
    Realizes index (.group suffix binds raw children :: rest) (⟨body, .counted⟩ :: items)
  | optional {index binds raw children inner rest items} (hinner : Realizes index children inner)
    (hrest : Realizes (index + (namesOf children).length) rest items) :
    Realizes index (.group .optional binds raw children :: rest)
      (⟨Suffix.optional.loop (seqAll (inner.map Item.regex)), .counted⟩ :: items)

theorem Realizes.isRegular {index : Nat} {ts : List Token} {items : List Item} (h : Realizes index ts items) :
    (seqAll (items.map Item.regex)).IsRegular := by
  induction h with
  | nil => trivial
  | @literal index text rest items _ ih =>
    rw [List.map_append, List.map_map]
    exact isRegular_seqAll_append.mpr ⟨isRegular_literal text, ih⟩
  | var _ he _ ih => exact ⟨he.regular, ih⟩
  | run _ _ hbody _ ih => exact ⟨hbody.regular, ih⟩
  | repeated _ _ hbody _ ih => exact ⟨hbody.regular, ih⟩
  | optional _ _ ihinner ih => exact ⟨ihinner, ih⟩

/-- There is a capture for each variable. -/
theorem Realizes.captureCount {index : Nat} {ts : List Token} {items : List Item} (h : Realizes index ts items) :
    (seqAll (items.map Item.regex)).captureCount = (namesOf ts).length := by
  induction h with
  | nil => rfl
  | @literal index text rest items _ ih =>
    rw [List.map_append, List.map_map, captureCount_seqAll_append, namesOf, Token.names, List.nil_append, ← ih]
    have hliteral := captureCount_literal text
    simp only [Function.comp_def, hliteral, Nat.zero_add]
  | var _ he _ ih =>
    simp only [List.map_cons, namesOf, Token.names, List.length_append, List.length_singleton, ← ih]
    simp [seqAll, Regex.captureCount, he.captures]
  | run _ hone hbody _ ih =>
    simp only [List.map_cons, namesOf, Token.names, List.length_append, hone, ← ih]
    simp [seqAll, Regex.captureCount, hbody.captures]
  | repeated _ hnone hbody _ ih =>
    simp only [List.map_cons, namesOf, Token.names, hnone, List.nil_append, ← ih]
    simp [seqAll, Regex.captureCount, hbody.captures]
  | optional _ _ ihinner ih =>
    simp only [List.map_cons, namesOf, Token.names, List.length_append, ← ih, ← ihinner]
    simp [seqAll, Regex.captureCount, Suffix.loop]

theorem IsPlainCapture.toFree {c : Text} (h : IsPlainCapture c) : IsFreeCapture c where
  valid := h.valid
  free := fun name hmem => by
    have hplain := h.plain _ hmem
    cases hplain

/-- A text without captures is read in a parenthesis as an expression without captures. -/
theorem IsFreeText.isBare_of_readsInside {t : Text} (ht : IsFreeText t) {index n : Nat} {body : Regex}
    (h : ReadsInside index t body n) : body.IsBare := by
  obtain ⟨f, hclosing, hbody, hsteps⟩ := h { Reading.start with captures := index } .plain [] rfl rfl
  obtain ⟨g, hplain, hbare, hsame⟩ := isBare_of_steps ht (hsteps.trans (by rw [all_nil, Reading.steps_nil]))
  rw [all_nil, Reading.steps_nil, Except.ok.injEq] at hsame
  have hclose : g.close = f.close := by
    have hframe := congrArg (fun r : Reading => r.frame.items.map Item.regex) hsame
    simpa [Frame.push] using hframe
  have hg : g.close = g.body := by rw [Frame.close, hplain]
  have hf : f.close = f.body := by rw [Frame.close, hclosing]
  rwa [← hbody, ← hf, ← hclose, hg]

/-- What is in a repeated group with at most one variable takes the words of a round. -/
theorem exists_takes_round {children : List Token} (hc : ∀ c ∈ capturesOf children, IsPlainCapture c)
    (hs : (∃ name c, children = [.variable name c]) ∨ Spliceable true children) (hone : (namesOf children).length ≤ 1)
    (index : Nat) : ∃ body, ReadsInside index (regexOf true children) body 0 ∧
      Takes body (wordsBy takenBy children) := by
  have hdenotes : DenotesInside index (regexOf true children) 0 (wordsBy takenBy children) := by
    rcases hs with ⟨name, c, rfl⟩ | hs
    · -- the capture has the parentheses of the group
      rw [regexOf, regexOf, wordsBy, wordsBy, if_pos rfl, List.append_nil, mul_one]
      exact (hc c (by simp [capturesOf])).inside index
    · have hinside := (denotes_regexOf hc hs index).inside
      rwa [groupsOf_true] at hinside
  obtain ⟨body, hreads, hregular, hlanguage⟩ := hdenotes
  have hfree := isFreeText_regexOf (fun c hmem => (hc c hmem).toFree) hone
  exact ⟨body, hreads, hregular, captureCount_of_isBare (hfree.isBare_of_readsInside hreads), hlanguage⟩

/-- The rule of a slash and a variable is read as a slash and the capture. -/
theorem read_round {name c : Text} (hc : IsPlainCapture c) {e : Regex} (he : Regex.read c = .ok e) :
    Regex.read (regexOf false [.literal ['/'], .variable name c]) = .ok (roundOf e) := by
  have hcapture := reads_enclosed (readsInside_of_bare he hc.bare 1) (mannerless_of_read he)
  have hreads := (reads_escape 0 ['/']).append hcapture (mannerless_cons (by decide) _)
  have hregex : regexOf false [.literal ['/'], .variable name c] = escape ['/'] ++ ('(' :: c ++ [')']) := by
    simp [regexOf]
  rw [hregex]
  exact hreads.apart.read

/-- The text of some tokens is read as items that realize them. -/
theorem exists_realizes {ts : List Token} (hc : ∀ c ∈ capturesOf ts, IsPlainCapture c) (hs : Spliceable false ts)
    (hone : OneEach ts) (index : Nat) :
    ∃ items, ReadsApart index (regexOf false ts) items (namesOf ts).length ∧ Realizes index ts items := by
  have hm : ∀ {ts : List Token}, (∀ c ∈ capturesOf ts, IsPlainCapture c) → Mannerless (regexOf false ts) :=
    fun hc => mannerless_of_valid (fun c hmem => (hc c hmem).valid) false
  induction ts using tokens_induction generalizing index with
  | nil =>
    rw [regexOf]
    exact ⟨[], (reads_nil index).apart, .nil⟩
  | literal text rest ih =>
    rw [capturesOf] at hc
    rw [Spliceable] at hs
    rw [OneEach] at hone
    obtain ⟨items, hreads, hitems⟩ := ih hc hs hone index
    have happend := (reads_escape index text).append_apart hreads (hm hc)
    rw [regexOf, namesOf, Token.names, List.nil_append]
    rw [Nat.zero_add] at happend
    exact ⟨_, happend, .literal hitems⟩
  | var name c rest ih =>
    rw [capturesOf, List.forall_mem_cons] at hc
    rw [Spliceable] at hs
    rw [OneEach] at hone
    obtain ⟨e, he⟩ := hc.1.valid
    have hregular := isRegular_of_read he hc.1.plain
    have hbare : e.IsBare := builds_isBare.read he fun l hl => Lexeme.isFree_of_isBare (hc.1.bare l hl)
    obtain ⟨items, hreads, hitems⟩ := ih hc.2 hs.2 hone (index + 1)
    have henclosed := reads_enclosed (readsInside_of_bare he hc.1.bare (index + 1)) (mannerless_of_read he)
    have happend := henclosed.append_apart hreads (hm hc.2)
    rw [regexOf, if_neg Bool.false_ne_true, namesOf, Token.names, List.length_append]
    refine ⟨_, happend, .var he ⟨hregular, captureCount_of_isBare hbare, ?_⟩ hitems⟩
    exact (takenBy_of_read he hregular).symm
  | group suffix binds raw children rest ihc ih =>
    rw [capturesOf, List.forall_mem_append] at hc
    rw [Spliceable] at hs
    rw [OneEach] at hone
    rw [regexOf, namesOf, Token.names, List.length_append]
    have hm' := hm hc.2
    cases hrepeats : suffix.repeats with
    | false =>
      obtain rfl : suffix = .optional := by cases suffix <;> first | rfl | cases hrepeats
      have hchildren : Spliceable false children := by
        rcases hs.1 with ⟨name, c, rfl⟩ | hchildren
        · simp [Spliceable]
        · exact hchildren
      obtain ⟨inner, hreads, hinner⟩ := ihc hc.1 hchildren hone.1 index
      obtain ⟨items, hrest, hitems⟩ := ih hc.2 hs.2 hone.2 (index + (namesOf children).length)
      have hpart := reads_part hreads.inside .optional
      rw [nest_of_isRegular hinner.isRegular] at hpart
      have hrun : isRun false .optional children = false := rfl
      rw [if_neg (ne_true_of_eq_false hrun)]
      exact ⟨_, hpart.append_apart hrest hm', .optional hinner hitems⟩
    | true =>
      rw [if_pos hrepeats] at hone
      rw [hrepeats, Bool.or_true] at hs
      rw [Bool.or_true]
      rcases Nat.lt_or_eq_of_le hone.1 with hnone | hone'
      · have hnames : namesOf children = [] := List.eq_nil_of_length_eq_zero (by omega)
        obtain ⟨body, hreads, hbody⟩ := exists_takes_round hc.1 hs.1 hone.1 index
        obtain ⟨items, hrest, hitems⟩ := ih hc.2 hs.2 hone.2 index
        have hpart := reads_part hreads suffix
        rw [nest_of_isRegular hbody.regular] at hpart
        have hrun : isRun false suffix children = false := by simp [isRun, hnames]
        rw [if_neg (ne_true_of_eq_false hrun), hnames]
        exact ⟨_, hpart.append_apart hrest hm', .repeated hrepeats hnames (hbody.times suffix) hitems⟩
      · obtain ⟨body, hreads, hbody⟩ := exists_takes_round hc.1 hs.1 hone.1 (index + 1)
        obtain ⟨items, hrest, hitems⟩ := ih hc.2 hs.2 hone.2 (index + 1)
        have hpart := reads_part hreads suffix
        rw [nest_of_isRegular hbody.regular] at hpart
        have hrun : isRun false suffix children = true := by
          have hnames : namesOf children ≠ [] := List.length_pos_iff.mp (by omega)
          simp [isRun, hrepeats, hnames]
        have henclosed := reads_enclosed hpart.apart.inside (mannerless_cons (by decide) _)
        rw [if_pos hrun, hone']
        exact ⟨_, henclosed.append_apart hrest hm', .run hrepeats hone' (hbody.times suffix).single hitems⟩

/-! ### What a match composes -/

/-- A group that may be absent is left at once, or after one round. -/
theorem mem_ways_optional {body : Regex} {s t : Cursor} (h : t ∈ (Suffix.optional.loop body).ways s) :
    t = s ∨ t ∈ body.ways s := by
  obtain ⟨u, hu, ht⟩ := mem_ways_loop.mp h
  obtain rfl : u = s := by simpa [Suffix.least, waysTimes] using hu
  rw [Suffix.least, Suffix.most, rounds] at ht
  rcases mem_waysUpTo_succ.mp ht with hleft | ⟨v, hv, hround⟩
  · exact Or.inl hleft
  · right
    split at hround
    · obtain rfl : t = v := by simpa [waysUpTo] using hround
      exact hv
    · exact hround ▸ hv

namespace Realizes

variable {index : Nat} {ts : List Token} {items : List Item}

/-- A way of the items takes a text that the tokens compose of what it captures, and no other captures change. -/
theorem composes (h : Realizes index ts items) {s u : Cursor} (hu : u ∈ (seqAll (items.map Item.regex)).ways s)
    (hs : ∀ i < (namesOf ts).length, s.captured (index + i + 1) = none) :
    ∃ t, s.ahead = t ++ u.ahead ∧
      (∀ j, j ≤ index ∨ index + (namesOf ts).length < j → u.captured j = s.captured j) ∧
      ∀ σ : Text → Option Text, (∀ i name, (namesOf ts)[i]? = some name → σ name = u.captured (index + i + 1)) →
        Composes σ ts t := by
  induction h generalizing s u with
  | nil =>
    obtain rfl : u = s := by simpa [seqAll, ways] using hu
    exact ⟨[], rfl, fun _ _ => rfl, fun _ _ => .nil⟩
  | literal _ ih =>
    rw [List.map_append, List.map_map] at hu
    obtain ⟨v, hahead, hcaptures, hu⟩ := mem_ways_literal hu
    have hsame := Cursor.captured_of_captures hcaptures
    simp only [namesOf, Token.names, List.nil_append] at hs ⊢
    obtain ⟨t, hrest, hkept, hall⟩ := ih hu fun i hi => (hsame _).trans (hs i hi)
    refine ⟨_, by rw [hahead, hrest, ← List.append_assoc], fun j hj => (hkept j hj).trans (hsame j), fun σ hσ => ?_⟩
    exact .literal (hall σ hσ)
  | @var index name c e rest items _ he _ ih =>
    obtain ⟨v, hv, hu⟩ := mem_ways_seq.mp hu
    obtain ⟨w, hw, hahead, hself, hothers⟩ := captured_of_mem_ways he.regular he.captures hv
    simp only [namesOf, Token.names, List.singleton_append, List.length_cons] at hs ⊢
    obtain ⟨t, hrest, hkept, hall⟩ := ih hu fun i hi => by
      rw [hothers _ (by omega), Nat.add_right_comm index 1 i]
      exact hs (i + 1) (by omega)
    refine ⟨w ++ t, by rw [hahead, hrest, List.append_assoc], fun j hj => ?_, fun σ hσ => ?_⟩
    · rw [hkept j (by omega), hothers j (by omega)]
    · refine .var ?_ (he.language ▸ hw) (hall σ fun i name hi => ?_)
      · rw [hσ 0 name rfl, hkept _ (by omega)]
        exact hself
      · rw [hσ (i + 1) name (by simpa using hi), Nat.add_right_comm index 1 i]
        rfl
  | @run index suffix binds raw children body rest items hrepeats hone hbody _ ih =>
    obtain ⟨v, hv, hu⟩ := mem_ways_seq.mp hu
    obtain ⟨w, hw, hahead, hself, hothers⟩ := captured_of_mem_ways hbody.regular hbody.captures hv
    obtain ⟨name, hname⟩ := List.length_eq_one_iff.mp hone
    simp only [namesOf, Token.names, hname, List.singleton_append, List.length_cons] at hs ⊢
    obtain ⟨t, hrest, hkept, hall⟩ := ih hu fun i hi => by
      rw [hothers _ (by omega), Nat.add_right_comm index 1 i]
      exact hs (i + 1) (by omega)
    refine ⟨w ++ t, by rw [hahead, hrest, List.append_assoc], fun j hj => ?_, fun σ hσ => ?_⟩
    · rw [hkept j (by omega), hothers j (by omega)]
    · refine .rounds hrepeats ?_ (hbody.language ▸ hw) (hall σ fun i name hi => ?_)
      · rw [hname, List.forall_mem_singleton, hσ 0 name rfl, hkept _ (by omega)]
        exact hself
      · rw [hσ (i + 1) name (by simpa using hi), Nat.add_right_comm index 1 i]
        rfl
  | @repeated index suffix binds raw children body rest items hrepeats hnone hbody _ ih =>
    obtain ⟨v, hv, hu⟩ := mem_ways_seq.mp hu
    obtain ⟨w, hw, hahead⟩ := exists_mem_language hbody.regular hv
    have hsame := Cursor.captured_of_captures (captures_eq_of_mem_ways hbody.regular hbody.captures hv)
    simp only [namesOf, Token.names, hnone, List.nil_append] at hs ⊢
    obtain ⟨t, hrest, hkept, hall⟩ := ih hu fun i hi => (hsame _).trans (hs i hi)
    refine ⟨w ++ t, by rw [hahead, hrest, List.append_assoc], fun j hj => (hkept j hj).trans (hsame j), fun σ hσ => ?_⟩
    exact .rounds hrepeats (by simp [hnone]) (hbody.language ▸ hw) (hall σ hσ)
  | @optional index binds raw children inner rest items _ _ ihinner ih =>
    obtain ⟨v, hv, hrest⟩ := mem_ways_seq.mp hu
    simp only [namesOf, Token.names, List.length_append] at hs ⊢
    -- the captures of the group are set in it or not at all, and those behind it are not set by it
    rcases mem_ways_optional hv with hleft | hv
    · subst hleft
      obtain ⟨t, hahead, hkept, hall⟩ := ih hrest fun i hi => by
        rw [Nat.add_assoc index]
        exact hs _ (by omega)
      refine ⟨t, hahead, fun j hj => hkept j (by omega), fun σ hσ => .absent (fun name hname => ?_) ?_⟩
      · obtain ⟨i, hi, hget⟩ := List.getElem_of_mem hname
        have hi' : (namesOf children ++ namesOf rest)[i]? = some name := by
          rw [List.getElem?_append_left hi, List.getElem?_eq_getElem hi, hget]
        rw [hσ i name hi', hkept _ (by omega)]
        exact hs i (by omega)
      · refine hall σ fun i name hi => ?_
        rw [hσ ((namesOf children).length + i) name (by rwa [List.getElem?_append_right (by omega),
          Nat.add_sub_cancel_left]), ← Nat.add_assoc index]
    · obtain ⟨x, hinner, hinnerKept, hinnerAll⟩ := ihinner hv fun i hi => hs i (by omega)
      obtain ⟨t, hahead, hkept, hall⟩ := ih hrest fun i hi => by
        rw [hinnerKept _ (by omega), Nat.add_assoc index]
        exact hs _ (by omega)
      refine ⟨x ++ t, by rw [hinner, hahead, List.append_assoc], fun j hj => ?_, fun σ hσ => .present ?_ ?_⟩
      · rw [hkept j (by omega), hinnerKept j (by omega)]
      · refine hinnerAll σ fun i name hi => ?_
        have hlength := (List.getElem?_eq_some_iff.mp hi).1
        rw [hσ i name (by rwa [List.getElem?_append_left hlength]), hkept _ (by omega)]
      · refine hall σ fun i name hi => ?_
        rw [hσ ((namesOf children).length + i) name (by rwa [List.getElem?_append_right (by omega),
          Nat.add_sub_cancel_left]), ← Nat.add_assoc index]

end Realizes

/-- The texts that the captures of some tokens took, by variable. -/
def takenTexts (ts : List Token) (found : Cursor) (name : Text) : Option Text :=
  found.captured ((namesOf ts).idxOf name + 1)

theorem takenTexts_of_getElem? {ts : List Token} (hnodup : (namesOf ts).Nodup) {found : Cursor} {i : Nat} {name : Text}
    (hi : (namesOf ts)[i]? = some name) : takenTexts ts found name = found.captured (i + 1) := by
  obtain ⟨hlt, rfl⟩ := List.getElem?_eq_some_iff.mp hi
  rw [takenTexts, hnodup.idxOf_getElem i hlt]

/-- A match composes its path, but perhaps for a slash at the end, of the texts that it captures. -/
theorem Realizes.exists_composes {ts : List Token} {items : List Item} (h : Realizes 0 ts items)
    (hnodup : (namesOf ts).Nodup) {path : Text} {found : Cursor}
    (hfound : (seqAll [seqAll (items.map Item.regex), optionalSlash]).matchWhole path = some found) :
    ∃ t, (path = t ∨ path = t ++ ['/']) ∧ Composes (takenTexts ts found) ts t := by
  obtain ⟨hway, hend⟩ := mem_ways_of_matchWhole hfound
  obtain ⟨u, hu, hslash⟩ := mem_ways_seq.mp hway
  have hregular : (seqAll [optionalSlash]).IsRegular := ⟨trivial, trivial⟩
  obtain ⟨e, he, hahead⟩ := exists_mem_language hregular hslash
  rw [hend, List.append_nil] at hahead
  rw [language_seqAll_singleton, mem_language_optionalSlash, ← hahead] at he
  have hsame := Cursor.captured_of_captures (captures_eq_of_mem_ways hregular rfl hslash)
  obtain ⟨t, hpath, -, hall⟩ := h.composes hu fun _ _ => rfl
  replace hpath : path = t ++ u.ahead := hpath
  refine ⟨t, ?_, hall _ fun i name hi => ?_⟩
  · rcases he with hnil | hslash
    · exact Or.inl (by rw [hpath, hnil, List.append_nil])
    · exact Or.inr (by rw [hpath, hslash])
  · rw [takenTexts_of_getElem? hnodup hi, hsame, Nat.zero_add]

end Routing.Pattern
