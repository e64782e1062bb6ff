import Routing.Proofs.Pattern.Splicing
import Routing.Proofs.Regex.Free

/-!
# Variables and captures

Where no capture of a pattern opens captures of its own, the captures of its regular expression are those of its
variables, in their order. `Aligned` says so of the items that the text of some tokens is read as: a variable is one
capture around its own expression, a run one capture around an expression without others, and any other group has the
captures of what is in it. `yields_regexOf` follows the reader through the text of some tokens, `aligned_of_read` is the
case of the whole rule.
-/

namespace Routing.Pattern

open Regex

/-- Whether a capture is an expression by itself that opens no capture of its own. -/
structure IsFreeCapture (c : Text) : Prop where
  valid : ∃ e, Regex.read c = .ok e
  free : ∀ name, .opening (.capturing name) ∉ Lexeme.all c

/-! ### Runs -/

/-- Whether a text is lexemes all through that are free of captures, with parentheses that match. -/
structure IsFreeText (t : Text) : Prop where
  lexes : Lexes t
  free : ∀ l ∈ Lexeme.all t, l.isFree = true
  level : depthAfter 0 (parens (brackets (Lexeme.all t))) = some 0

theorem IsFreeCapture.text {c : Text} (h : IsFreeCapture c) : IsFreeText c := by
  obtain ⟨e, he⟩ := h.valid
  obtain ⟨q, hq, houter, -⟩ := read_eq_ok.mp he
  refine ⟨(brackets_of_read he).1, free_of_read he h.free, ?_⟩
  have hparens := Reading.parens_of_steps hq
  rwa [houter] at hparens

theorem isFreeText_nil : IsFreeText [] :=
  ⟨by simp [Lexes, all_nil], by simp [all_nil], by rw [all_nil]; rfl⟩

/-- A lexeme that is no bracket, before a text. -/
theorem IsFreeText.cons {t u : Text} {l : Lexeme} (ht : IsFreeText t) (hnext : Lexeme.next u = some (l, t))
    (hl : l.isFree = true) (hbracket : l.bracket? = none) (hbroken : l ≠ .broken) : IsFreeText u := by
  have hall := all_of_next hnext
  refine ⟨?_, ?_, ?_⟩
  · rw [Lexes, hall]
    exact List.not_mem_cons_of_ne_of_not_mem hbroken.symm ht.lexes
  · rw [hall]
    exact List.forall_mem_cons.mpr ⟨hl, ht.free⟩
  · rw [hall, brackets, List.filterMap_cons_none hbracket]
    exact ht.level

theorem IsFreeText.literal {u : Text} (hu : IsFreeText u) (t : Text) : IsFreeText (escape t ++ u) := by
  induction t with
  | nil => exact hu
  | cons c t ih =>
    have hcons : escape (c :: t) = escape [c] ++ escape t := by simp [escape]
    rw [hcons, List.append_assoc]
    by_cases hc : c ∈ specials
    · have hone : escape [c] = ['\\', c] := by simp [escape, hc]
      rw [hone]
      exact ih.cons (next_of_special hc _) rfl rfl (by simp)
    · have hone : escape [c] = [c] := by simp [escape, hc]
      rw [hone]
      exact ih.cons (next_of_plain hc _) rfl rfl (by simp)

theorem IsFreeText.of_digits {digits t : Text} (hdigits : ∀ c ∈ digits, c.isDigit = true)
    (h : IsFreeText (digits ++ t)) : IsFreeText t := by
  have hall := @all_digits digits t hdigits
  have hnone : brackets (digits.map fun c => .point c.toNat) = [] := by
    simp [brackets, List.filterMap_eq_nil_iff, Lexeme.bracket?]
  refine ⟨?_, ?_, ?_⟩
  · have hlexes := h.lexes
    rw [Lexes, hall, List.mem_append, not_or] at hlexes
    exact hlexes.2
  · have hfree := h.free
    rw [hall, List.forall_mem_append] at hfree
    exact hfree.2
  · have hlevel := h.level
    rwa [hall, brackets_append, hnone, List.nil_append] at hlevel

/-- A text before another one, of which it may take some digits. -/
theorem IsFreeText.append {t u : Text} (ht : IsFreeText t) (hu : IsFreeText u) (hfollows : Follows u) :
    IsFreeText (t ++ u) := by
  obtain ⟨lexemes, digits, u', rfl, hdigits, hall, hfree, hbroken, hbrackets⟩ :=
    all_append_of_free ht.lexes ht.free hfollows
  have hu' := hu.of_digits hdigits
  refine ⟨?_, ?_, ?_⟩
  · rw [Lexes, hall, List.mem_append, not_or]
    exact ⟨hbroken, hu'.lexes⟩
  · rw [hall, List.forall_mem_append]
    exact ⟨hfree, hu'.free⟩
  · rw [hall, brackets_append, hbrackets, parens_append, depthAfter_append, ht.level]
    exact hu'.level

theorem IsFreeText.all_closing {t : Text} (ht : IsFreeText t) (y : Text) :
    Lexeme.all (t ++ ')' :: y) = Lexeme.all t ++ .closing :: Lexeme.all y := by
  rw [all_append ht.lexes (separate_closing y), @all_of_next (')' :: y) y .closing rfl]

/-- A group before a text. -/
theorem IsFreeText.group {t u : Text} (ht : IsFreeText t) (hu : IsFreeText u) (hm : Mannerless u) (suffix : Suffix) :
    IsFreeText (part t ++ [suffix.symbol] ++ u) := by
  have hall : Lexeme.all (part t ++ [suffix.symbol] ++ u) =
      .opening .plain :: (Lexeme.all t ++ .closing :: .count suffix.least suffix.most .greedy :: Lexeme.all u) := by
    rw [all_of_next (next_group t suffix u), ht.all_closing, all_of_next (next_symbol suffix hm)]
  refine ⟨?_, ?_, ?_⟩
  · rw [Lexes, hall]
    simpa using ⟨ht.lexes, hu.lexes⟩
  · rw [hall]
    simp only [List.forall_mem_cons, List.forall_mem_append]
    exact ⟨rfl, ht.free, rfl, rfl, hu.free⟩
  · have hbrackets : parens (brackets (Lexeme.all (part t ++ [suffix.symbol] ++ u))) =
        .opening :: (parens (brackets (Lexeme.all t)) ++ .closing :: parens (brackets (Lexeme.all u))) := by
      rw [hall, brackets_cons, brackets_append, parens_append, parens_append]
      rfl
    rw [hbrackets, depthAfter, depthAfter_append, depthAfter_add ht.level 1]
    exact hu.level

/-- The text of a repeated group with at most one variable is free of captures. -/
theorem isFreeText_regexOf {ts : List Token} (hc : ∀ c ∈ capturesOf ts, IsFreeCapture c)
    (hone : (namesOf ts).length ≤ 1) : IsFreeText (regexOf true ts) := by
  induction ts using tokens_induction with
  | nil =>
    rw [regexOf]
    exact isFreeText_nil
  | literal text rest ih =>
    rw [regexOf]
    exact (ih (by simpa [capturesOf] using hc) (by simpa [namesOf, Token.names] using hone)).literal text
  | var name c rest ih =>
    rw [capturesOf, List.forall_mem_cons] at hc
    simp only [namesOf, Token.names, List.length_append, List.length_singleton] at hone
    -- no other variable is captured after it, so what follows is no digit and no count
    have hnames : namesOf rest = [] := List.eq_nil_of_length_eq_zero (by omega)
    have hfollows := follows_regexOf hnames separate_nil.toFollows true
    rw [List.append_nil] at hfollows
    rw [regexOf, if_pos rfl]
    exact hc.1.text.append (ih hc.2 (by simp [hnames])) hfollows
  | group suffix binds raw children rest ihc ih =>
    rw [capturesOf, List.forall_mem_append] at hc
    simp only [namesOf, Token.names, List.length_append] at hone
    have hm : Mannerless (regexOf true rest) := mannerless_of_valid (fun c hmem => (hc.2 c hmem).valid) true
    have hrun : isRun true suffix children = false := by simp [isRun]
    rw [regexOf, hrun]
    exact (ihc hc.1 (by omega)).group (ih hc.2 (by omega)) hm suffix

/-- A text without captures leaves one in the parenthesis that it is in. -/
theorem isBare_of_steps {r q : Reading} {t y : Text} {closing : Closing} {flags : Flags} (ht : IsFreeText t)
    (h : (r.enter closing flags).steps (Lexeme.all (t ++ ')' :: y)) = .ok q) :
    ∃ f : Frame, f.closing = closing ∧ f.body.IsBare ∧
      ({ r with frame := r.frame.push f.close .single } : Reading).steps (Lexeme.all y) = .ok q := by
  rw [ht.all_closing] at h
  obtain ⟨s, hs, hclose⟩ := Reading.steps_append_ok.mp h
  obtain ⟨u, hu, hrest⟩ := Reading.steps_cons.mp hclose
  -- what is read inside is read the same with nothing around
  let alone : Reading := { r with frame := { closing, flags }, outer := [] }
  obtain ⟨s', hs', rfl⟩ := @Reading.steps_of_below alone s (r.frame :: r.outer) _ 0 ht.free ht.level hs
  have houter : s'.outer = [] := by
    have hparens := Reading.parens_of_steps hs'
    exact List.eq_nil_of_length_eq_zero (Option.some.inj (hparens.symm.trans ht.level))
  obtain ⟨hclosing, hbody⟩ := Reading.holds_of_steps builds_isBare ht.free rfl rfl rfl hs' houter
  obtain ⟨hcaptures, hnames⟩ := Reading.captures_of_steps ht.free hs'
  have hleave := Reading.wellFormed_eq_ok.mp hu
  rw [Reading.leave, Reading.below, houter] at hleave
  refine ⟨s'.frame, hclosing, hbody, ?_⟩
  rw [← hrest, ← Option.some.inj hleave]
  simp only [hcaptures, hnames, alone]

/-- The group of a run is one capture around an expression without captures. -/
theorem run_of_steps {r q : Reading} {t y : Text} {suffix : Suffix} (ht : IsFreeText t)
    (h : r.steps (Lexeme.all ('(' :: (part t ++ [suffix.symbol]) ++ [')'] ++ y)) = .ok q) :
    ∃ body : Regex, body.IsBare ∧
      (r.extend [⟨.capture (r.captures + 1) body, .single⟩] 1).steps (Lexeme.all y) = .ok q := by
  let outer : Reading := { r with captures := r.captures + 1 }
  let s : Reading := outer.enter (.capture (r.captures + 1)) r.frame.flags
  have henter : r.step (.opening (.capturing none)) = .ok s := rfl
  have hm : Mannerless (part t ++ [suffix.symbol]) := mannerless_cons (by decide) _
  have hinside : Lexeme.next (part t ++ [suffix.symbol] ++ ')' :: y) = _ := next_group t suffix _
  rw [steps_all_of_next (next_enclosed hm y) henter, @steps_all_of_next s _ _ _ _ hinside rfl] at h
  obtain ⟨f, hclosing, hbody, hcount⟩ := isBare_of_steps ht h
  -- the group is counted, and the capture around it is closed
  let item : Item := ⟨.loop f.body.nest suffix.least suffix.most false, .counted⟩
  have hclose : f.close = f.body := by rw [Frame.close, hclosing]
  have hcounted := steps_symbol s f.body 0 suffix (mannerless_cons (by decide : ')' ≠ '?' ∧ ')' ≠ '+') y)
  have hclosed : (s.extend [item] 0).step .closing =
      .ok (r.extend [⟨.capture (r.captures + 1) (seqAll [item.regex]), .single⟩] 1) := by
    rw [Reading.step, leave_extend]
    rfl
  rw [hclose] at hcount
  replace hcount := hcounted.symm.trans hcount
  rw [steps_all_of_next rfl hclosed] at hcount
  have hbare : item.regex.IsBare := hbody.nest
  exact ⟨seqAll [item.regex], isBare_seqAll (List.forall_mem_singleton.mpr hbare), hcount⟩

/-! ### The items of a rule -/

/-- Whether some items are those of some tokens that have one capture for each variable. There are `index` captures
before them. -/
inductive Aligned : Nat → List Token → List Item → Prop
  | nil {index} : Aligned index [] []
  | literal {index text rest items} (hrest : Aligned index rest items) :
    Aligned index (.literal text :: rest) (text.map (fun c => ⟨.oneOf (.single c false), .single⟩) ++ items)
  | var {index name c e rest items} (hread : Regex.read c = .ok e) (hbare : e.IsBare)
    (hrest : Aligned (index + 1) rest items) :
    Aligned index (.variable name c :: rest) (⟨.capture (index + 1) e, .single⟩ :: items)
  | run {index suffix binds raw children body rest items} (hrepeats : suffix.repeats = true)
    (hone : (namesOf children).length = 1) (hbare : body.IsBare) (hrest : Aligned (index + 1) rest items) :
    Aligned index (.group suffix binds raw children :: rest) (⟨.capture (index + 1) body, .single⟩ :: items)
  | group {index suffix binds raw children inner rest items} (hrun : isRun false suffix children = false)
    (hinner : Aligned index children inner) (hrest : Aligned (index + (namesOf children).length) rest items) :
    Aligned index (.group suffix binds raw children :: rest)
      (⟨.loop (seqAll (inner.map Item.regex)).nest suffix.least suffix.most false, .counted⟩ :: items)

/-- Without variables there is nothing to capture. -/
theorem regexOf_of_namesOf {ts : List Token} (h : namesOf ts = []) (inside : Bool) :
    regexOf inside ts = regexOf false ts := by
  induction ts using tokens_induction generalizing inside with
  | nil => rw [regexOf, regexOf]
  | literal text rest ih => rw [regexOf, regexOf, ih (by simpa [namesOf, Token.names] using h)]
  | var name c rest ih => simp [namesOf, Token.names] at h
  | group suffix binds raw children rest ihc ih =>
    simp only [namesOf, Token.names, List.append_eq_nil_iff] at h
    have hrun : ∀ inside, isRun inside suffix children = false := fun inside => by simp [isRun, h.1]
    rw [regexOf, regexOf, hrun, hrun, ihc h.1 (inside || suffix.repeats), ihc h.1 (false || suffix.repeats),
      ih h.2 inside]

/-- Where captures are read in parentheses, they are read there as they are read by themselves. -/
theorem IsFreeCapture.exists_readsInside {c : Text} (h : IsFreeCapture c) {r q : Reading} {y : Text}
    (hsteps : r.steps (Lexeme.all ('(' :: c ++ [')'] ++ y)) = .ok q) :
    ∃ e, Regex.read c = .ok e ∧ e.IsBare ∧ ∀ index, ReadsInside index c e 0 := by
  obtain ⟨e, he⟩ := h.valid
  have hfree := free_of_read he h.free
  rw [all_of_next (next_enclosed (mannerless_of_read he) y),
    all_append (brackets_of_read he).1 (separate_closing y)] at hsteps
  obtain ⟨s, hs, hsteps⟩ := Reading.steps_cons.mp hsteps
  obtain ⟨s', hs', -⟩ := Reading.steps_append_ok.mp hsteps
  obtain ⟨q', hq', -⟩ := read_eq_ok.mp he
  have hdepth : Reading.start.outer.length < s.outer.length := by
    rw [← Except.ok.inj hs]
    exact Nat.succ_pos _
  exact ⟨e, he, builds_isBare.read he hfree, readsInside_of_bare he (Reading.bare_of_steps hq' hs' hdepth hfree)⟩

/-- The end of a group and its count. -/
theorem steps_closing_symbol (r : Reading) (items : List Item) (n : Nat) (suffix : Suffix) {y : Text}
    (hy : Mannerless y) :
    ((r.enter .plain r.frame.flags).extend items n).steps (Lexeme.all (')' :: suffix.symbol :: y)) =
      (r.extend [⟨.loop (seqAll (items.map Item.regex)).nest suffix.least suffix.most false, .counted⟩] n).steps
        (Lexeme.all y) := by
  have hclosed : ((r.enter .plain r.frame.flags).extend items n).step .closing =
      .ok (r.extend [⟨seqAll (items.map Item.regex), .single⟩] n) := by
    rw [Reading.step, leave_extend]
    simp [Reading.wellFormed, Reading.extend, Frame.push, Frame.close, Frame.body, Frame.branch, altAll]
  rw [steps_all_of_next rfl hclosed, steps_symbol r _ n suffix hy]

/-- The text of some tokens, where it is read, is read as items that are aligned with them. -/
theorem yields_regexOf {ts : List Token} (hc : ∀ c ∈ capturesOf ts, IsFreeCapture c) (hone : OneEach ts)
    {r q : Reading} {y : Text} (h : r.steps (Lexeme.all (regexOf false ts ++ y)) = .ok q) (hflags : r.frame.flags = {})
    (hy : Mannerless y) :
    ∃ items, Aligned r.captures ts items ∧ (r.extend items (namesOf ts).length).steps (Lexeme.all y) = .ok q := by
  have hm : ∀ {ts : List Token}, (∀ c ∈ capturesOf ts, IsFreeCapture c) → Mannerless (regexOf false ts) :=
    fun hc => mannerless_of_valid (fun c hmem => (hc c hmem).valid) false
  induction ts using tokens_induction generalizing r q y with
  | nil =>
    rw [regexOf] at h
    exact ⟨[], .nil, h⟩
  | literal text rest ih =>
    rw [capturesOf] at hc
    rw [OneEach] at hone
    rw [regexOf, List.append_assoc, reads_escape r.captures text r _ hflags rfl ((hm hc).append hy)] at h
    obtain ⟨items, hitems, hrest⟩ := ih hc hone h hflags hy
    rw [Reading.extend_extend, Nat.zero_add] at hrest
    exact ⟨_, .literal hitems, hrest⟩
  | var name c rest ih =>
    rw [capturesOf, List.forall_mem_cons] at hc
    rw [OneEach] at hone
    rw [regexOf, if_neg Bool.false_ne_true, List.append_assoc] at h
    obtain ⟨e, he, hbare, hinside⟩ := hc.1.exists_readsInside h
    have hreads := reads_enclosed (hinside (r.captures + 1)) (mannerless_of_read he)
    rw [hreads r _ hflags rfl ((hm hc.2).append hy)] at h
    obtain ⟨items, hitems, hrest⟩ := ih hc.2 hone h hflags hy
    rw [Reading.extend_extend, Nat.zero_add] at hrest
    refine ⟨_, .var he hbare hitems, ?_⟩
    rwa [namesOf, Token.names, List.length_append, List.length_singleton]
  | group suffix binds raw children rest ihc ih =>
    rw [capturesOf, List.forall_mem_append] at hc
    rw [OneEach] at hone
    rw [regexOf, List.append_assoc] at h
    rw [namesOf, Token.names, List.length_append]
    cases hrun : isRun false suffix children with
    | true =>
      obtain ⟨hrepeats, hnames⟩ : suffix.repeats = true ∧ namesOf children ≠ [] := by simpa [isRun] using hrun
      rw [if_pos hrepeats] at hone
      rw [if_pos hrun, Bool.false_or, hrepeats] at h
      have hlength : (namesOf children).length = 1 := Nat.le_antisymm hone.1 (List.length_pos_iff.mpr hnames)
      obtain ⟨body, hbare, hbody⟩ := run_of_steps (isFreeText_regexOf hc.1 hone.1) h
      obtain ⟨items, hitems, hrest⟩ := ih hc.2 hone.2 hbody hflags hy
      rw [Reading.extend_extend] at hrest
      refine ⟨_, .run hrepeats hlength hbare hitems, ?_⟩
      rwa [hlength]
    | false =>
      have hchildren : OneEach children ∧ regexOf (false || suffix.repeats) children = regexOf false children := by
        cases hrepeats : suffix.repeats with
        | false =>
          rw [hrepeats, if_neg Bool.false_ne_true] at hone
          exact ⟨hone.1, rfl⟩
        | true =>
          have hnames : namesOf children = [] := by simpa [isRun, hrepeats] using hrun
          exact ⟨oneEach_of_length (by simp [hnames]), regexOf_of_namesOf hnames _⟩
      rw [if_neg (ne_true_of_eq_false hrun), hchildren.2, steps_all_of_next (next_group _ suffix _) rfl] at h
      obtain ⟨inner, hinner, hgroup⟩ := ihc hc.1 hchildren.1 h hflags (mannerless_cons (by decide) _)
      rw [steps_closing_symbol r inner _ suffix ((hm hc.2).append hy)] at hgroup
      obtain ⟨items, hitems, hrest⟩ := ih hc.2 hone.2 hgroup hflags hy
      rw [Reading.extend_extend] at hrest
      exact ⟨_, .group hrun hinner hitems, hrest⟩

/-- The text of a rule is read as an expression that is aligned with its tokens. -/
theorem aligned_of_read {ts : List Token} (hc : ∀ c ∈ capturesOf ts, IsFreeCapture c) (hone : OneEach ts) {e : Regex}
    (he : Regex.read (regexOf false ts) = .ok e) :
    ∃ items, Aligned 0 ts items ∧ e = seqAll (items.map Item.regex) := by
  obtain ⟨q, hq, -, rfl⟩ := read_eq_ok.mp he
  rw [← List.append_nil (regexOf false ts)] at hq
  obtain ⟨items, hitems, hend⟩ := yields_regexOf hc hone hq rfl mannerless_nil
  rw [all_nil, Reading.steps_nil, Except.ok.injEq] at hend
  refine ⟨items, hitems, ?_⟩
  rw [← hend]
  simp [Reading.extend, Reading.start, Frame.close, Frame.body, Frame.branch, altAll]

end Routing.Pattern
