import Mathlib
import Routing.Regex.Match

/-!
# The language of an expression

An expression without references, anchors, look-ahead and forbidden backtracking is *regular*: what it takes off a
text depends on nothing but the text. `Regex.language` is the set of the texts that it can take, by recursion on the
expression, and the list of ways agrees with it in both directions:

* `exists_mem_language` — every way takes off a word of the language;
* `exists_way_of_mem_language` — every word of the language that is ahead is taken off by some way;
* `accepts_iff_mem_language` — so a whole text is matched iff it is a word.

A character that no part of an expression holds is in none of its words (`not_mem_of_avoids`).

The only subtle point is the loop: `waysUpTo` ends at a round that does not move on. A word of a loop has a
decomposition without empty rounds (`exists_nonempty_rounds`), and those are never cut short.
-/

namespace Routing.Regex

open scoped Computability

/-! ### Regular expressions and their words -/

/-- Whether an expression is made of characters, sequences, choices, captures and loops only. -/
def IsRegular : Regex → Prop
  | empty => True
  | oneOf _ => True
  | seq first second => first.IsRegular ∧ second.IsRegular
  | alt first second => first.IsRegular ∧ second.IsRegular
  | capture _ body => body.IsRegular
  | loop body _ _ _ => body.IsRegular
  | possessive _ _ _ _ => False
  | atomic _ => False
  | look _ _ => False
  | backref _ _ => False
  | anchor _ => False

theorem isRegular_seqAll {parts : List Regex} (h : ∀ r ∈ parts, r.IsRegular) : (seqAll parts).IsRegular := by
  induction parts with
  | nil => trivial
  | cons r parts ih => exact ⟨h r (by simp), ih fun q hq => h q (by simp [hq])⟩

/-- Only possessive loops are changed by a loop around them. -/
theorem nest_of_isRegular {r : Regex} (h : r.IsRegular) : r.nest = r := by
  induction r with
  | empty => rfl
  | oneOf => rfl
  | seq first second ih₁ ih₂ => rw [nest, ih₁ h.1, ih₂ h.2]
  | alt first second ih₁ ih₂ => rw [nest, ih₁ h.1, ih₂ h.2]
  | capture index body ih => rw [nest, ih h]
  | loop body least most reluctant ih => rw [nest, ih h]
  | possessive => exact h.elim
  | atomic => exact h.elim
  | look => exact h.elim
  | backref => exact h.elim
  | anchor => exact h.elim

/-- Up to so many words of a language, one after the other; any number of them without a bound. -/
def upTo (l : Language Char) : Option Nat → Language Char
  | none => l∗
  | some n => (1 + l) ^ n

/-- The words of a regular expression. -/
def language : Regex → Language Char
  | empty => 1
  | oneOf set => {w | ∃ c, set.holds c = true ∧ w = [c]}
  | seq first second => first.language * second.language
  | alt first second => first.language + second.language
  | capture _ body => body.language
  | loop body least most _ => body.language ^ least * upTo body.language (most.map (· - least))
  | _ => 0

theorem language_loop (body : Regex) (least : Nat) (most : Option Nat) (reluctant : Bool) :
    (loop body least most reluctant).language = body.language ^ least * upTo body.language (most.map (· - least)) := rfl

theorem mem_language_oneOf {set : CharSet} {w : Text} :
    w ∈ (oneOf set).language ↔ ∃ c, set.holds c = true ∧ w = [c] := Iff.rfl

/-! ### Membership in the lists of ways -/

theorem mem_waysTimes_succ {step : Cursor → List Cursor} {n : Nat} {s t : Cursor} :
    t ∈ waysTimes step (n + 1) s ↔ ∃ u ∈ step s, t ∈ waysTimes step n u := by
  rw [waysTimes, List.mem_flatMap]

/-- A loop is left at once, or after a round: the last one if it did not move on. -/
theorem mem_waysUpTo_succ {step : Cursor → List Cursor} {reluctant : Bool} {n : Nat} {s t : Cursor} :
    t ∈ waysUpTo step reluctant (n + 1) s ↔
      t = s ∨ ∃ u ∈ step s,
        if u.ahead.length < s.ahead.length then t ∈ waysUpTo step reluctant n u else t = u := by
  rw [waysUpTo]
  have hround : ∀ u, t ∈ (if u.ahead.length < s.ahead.length then waysUpTo step reluctant n u else [u]) ↔
      if u.ahead.length < s.ahead.length then t ∈ waysUpTo step reluctant n u else t = u := by
    intro u
    split <;> simp
  cases reluctant with
  | true => simp only [if_true, List.mem_cons, List.mem_flatMap, hround]
  | false =>
    simp only [Bool.false_eq_true, if_false, List.mem_append, List.mem_flatMap, hround, List.mem_singleton]
    exact or_comm

-- The equations of `ways` are made here once. Without that, all the proofs below that unfold it wait for them together.
/-- The loop `a*` goes on while it can, and is left after fewer and fewer rounds. -/
example : ((loop (oneOf (.single 'a' false)) 0 none false).ways (.ofText ['a', 'a'])).map (·.ahead) =
    [[], ['a'], ['a', 'a']] := by
  cbv

theorem mem_ways_seq {first second : Regex} {s t : Cursor} :
    t ∈ (seq first second).ways s ↔ ∃ u ∈ first.ways s, t ∈ second.ways u := by
  rw [ways, List.mem_flatMap]

theorem mem_ways_loop {body : Regex} {least : Nat} {most : Option Nat} {reluctant : Bool} {s t : Cursor} :
    t ∈ (loop body least most reluctant).ways s ↔ ∃ u ∈ waysTimes body.ways least s,
      t ∈ waysUpTo body.ways reluctant (rounds least most u.toPlace) u := by
  rw [ways, List.mem_flatMap]

theorem mem_ways_oneOf {set : CharSet} {s t : Cursor} :
    t ∈ (oneOf set).ways s ↔ ∃ c rest, s.ahead = c :: rest ∧ set.holds c = true ∧
      t = s.moveTo ⟨c :: s.behind, rest⟩ := by
  rw [ways]
  cases hs : s.ahead with
  | nil => simp [Place.advance, hs]
  | cons c rest =>
    simp only [Place.advance, hs]
    by_cases hc : set.holds c = true
    · simp [hc]
    · simp [hc]

theorem mem_ways_capture {index : Nat} {body : Regex} {s t : Cursor} :
    t ∈ (capture index body).ways s ↔ ∃ u ∈ body.ways s, t = u.enclose index s.toPlace u.toPlace := by
  rw [ways, List.mem_map]
  exact exists_congr fun u => and_congr_right fun _ => eq_comm

theorem mem_ways_seqAll_append {a b : List Regex} {s t : Cursor} :
    t ∈ (seqAll (a ++ b)).ways s ↔ ∃ u ∈ (seqAll a).ways s, t ∈ (seqAll b).ways u := by
  induction a generalizing s with
  | nil => simp [seqAll, ways]
  | cons r a ih =>
    show t ∈ (seq r (seqAll (a ++ b))).ways s ↔ ∃ u ∈ (seq r (seqAll a)).ways s, t ∈ (seqAll b).ways u
    simp only [mem_ways_seq, ih]
    constructor
    · rintro ⟨u, hu, v, hv, ht⟩
      exact ⟨v, ⟨u, hu, hv⟩, ht⟩
    · rintro ⟨v, ⟨u, hu, hv⟩, ht⟩
      exact ⟨u, hu, v, hv, ht⟩

/-! ### Every way takes off a word -/

section Sound

variable {step : Cursor → List Cursor} {l : Language Char}

theorem waysTimes_takes_word (hstep : ∀ s t, t ∈ step s → ∃ w ∈ l, s.ahead = w ++ t.ahead) (n : Nat)
    {s t : Cursor} (h : t ∈ waysTimes step n s) : ∃ w ∈ l ^ n, s.ahead = w ++ t.ahead := by
  induction n generalizing s with
  | zero =>
    have hts : t = s := by simpa [waysTimes] using h
    exact ⟨[], by rw [pow_zero]; exact Language.nil_mem_one, by simp [hts]⟩
  | succ n ih =>
    obtain ⟨u, hu, ht⟩ := mem_waysTimes_succ.mp h
    obtain ⟨v, hv, hsv⟩ := hstep s u hu
    obtain ⟨w, hw, huw⟩ := ih ht
    refine ⟨v ++ w, ?_, by rw [hsv, huw, List.append_assoc]⟩
    rw [pow_succ']
    exact Language.append_mem_mul hv hw

theorem nil_mem_upTo (l : Language Char) (most : Option Nat) : ([] : Text) ∈ upTo l most := by
  cases most with
  | none => exact Language.nil_mem_kstar l
  | some n =>
    show [] ∈ (1 + l) ^ n
    induction n with
    | zero => rw [pow_zero]; exact Language.nil_mem_one
    | succ n ih =>
      rw [pow_succ']
      exact Language.append_mem_mul (a := []) (b := []) (Or.inl Language.nil_mem_one) ih

/-- Up to so many words are words without a bound. -/
theorem upTo_subset_kstar {l : Language Char} {n : Nat} {w : Text} (h : w ∈ (1 + l) ^ n) : w ∈ l∗ := by
  induction n generalizing w with
  | zero =>
    rw [pow_zero, Language.mem_one] at h
    rw [h]
    exact Language.nil_mem_kstar l
  | succ n ih =>
    rw [pow_succ', Language.mem_mul] at h
    obtain ⟨u, hu, v, hv, rfl⟩ := h
    rcases hu with hu | hu
    · rw [(Language.mem_one u).mp hu, List.nil_append]
      exact ih hv
    · exact Set.mem_of_mem_of_subset (Language.append_mem_mul hu (ih hv)) (mul_kstar_le_kstar (a := l))

theorem waysUpTo_takes_word (hstep : ∀ s t, t ∈ step s → ∃ w ∈ l, s.ahead = w ++ t.ahead) (reluctant : Bool)
    (n : Nat) {s t : Cursor} (h : t ∈ waysUpTo step reluctant n s) : ∃ w ∈ (1 + l) ^ n, s.ahead = w ++ t.ahead := by
  induction n generalizing s with
  | zero =>
    have hts : t = s := by simpa [waysUpTo] using h
    exact ⟨[], by rw [pow_zero]; exact Language.nil_mem_one, by simp [hts]⟩
  | succ n ih =>
    rcases mem_waysUpTo_succ.mp h with rfl | ⟨u, hu, ht⟩
    · exact ⟨[], nil_mem_upTo l (some (n + 1)), by simp⟩
    · obtain ⟨v, hv, hsv⟩ := hstep s u hu
      have hv' : v ∈ 1 + l := Or.inr hv
      split at ht
      · obtain ⟨w, hw, huw⟩ := ih ht
        refine ⟨v ++ w, ?_, by rw [hsv, huw, List.append_assoc]⟩
        rw [pow_succ']
        exact Language.append_mem_mul hv' hw
      · refine ⟨v ++ [], ?_, by rw [ht, List.append_nil, hsv]⟩
        rw [pow_succ']
        exact Language.append_mem_mul hv' (nil_mem_upTo l (some n))

end Sound

/-- Every way of a regular expression takes off a word of its language. -/
theorem exists_mem_language {r : Regex} (hr : r.IsRegular) {s t : Cursor} (h : t ∈ r.ways s) :
    ∃ w ∈ r.language, s.ahead = w ++ t.ahead := by
  induction r generalizing s t with
  | empty =>
    have hts : t = s := by simpa [ways] using h
    exact ⟨[], Language.nil_mem_one, by simp [hts]⟩
  | oneOf set =>
    obtain ⟨c, rest, hs, hc, rfl⟩ := mem_ways_oneOf.mp h
    exact ⟨[c], mem_language_oneOf.mpr ⟨c, hc, rfl⟩, hs⟩
  | seq first second ih₁ ih₂ =>
    obtain ⟨u, hu, ht⟩ := mem_ways_seq.mp h
    obtain ⟨v, hv, hsv⟩ := ih₁ hr.1 hu
    obtain ⟨w, hw, huw⟩ := ih₂ hr.2 ht
    exact ⟨v ++ w, Language.append_mem_mul hv hw, by rw [hsv, huw, List.append_assoc]⟩
  | alt first second ih₁ ih₂ =>
    rw [ways, List.mem_append] at h
    rcases h with h | h
    · obtain ⟨w, hw, hsw⟩ := ih₁ hr.1 h
      exact ⟨w, Or.inl hw, hsw⟩
    · obtain ⟨w, hw, hsw⟩ := ih₂ hr.2 h
      exact ⟨w, Or.inr hw, hsw⟩
  | capture index body ih =>
    obtain ⟨u, hu, rfl⟩ := mem_ways_capture.mp h
    obtain ⟨w, hw, hsw⟩ := ih hr hu
    exact ⟨w, hw, hsw⟩
  | loop body least most reluctant ih =>
    obtain ⟨u, hu, ht⟩ := mem_ways_loop.mp h
    have hstep : ∀ s t, t ∈ body.ways s → ∃ w ∈ body.language, s.ahead = w ++ t.ahead := fun _ _ => ih hr
    obtain ⟨v, hv, hsv⟩ := waysTimes_takes_word hstep least hu
    obtain ⟨w, hw, huw⟩ := waysUpTo_takes_word hstep reluctant _ ht
    refine ⟨v ++ w, Language.append_mem_mul hv ?_, by rw [hsv, huw, List.append_assoc]⟩
    cases most with
    | none => exact upTo_subset_kstar hw
    | some m => exact hw
  | possessive => exact hr.elim
  | atomic => exact hr.elim
  | look => exact hr.elim
  | backref => exact hr.elim
  | anchor => exact hr.elim

/-! ### Every word is taken off by some way -/

/-- A word of a loop is put together from rounds none of which is empty; each takes a character at least. -/
theorem exists_nonempty_rounds {l : Language Char} {most : Option Nat} {w : Text} (h : w ∈ upTo l most) :
    ∃ rounds : List Text, w = rounds.flatten ∧ (∀ v ∈ rounds, v ∈ l ∧ v ≠ []) ∧ rounds.length ≤ most.getD w.length := by
  cases most with
  | none =>
    obtain ⟨rounds, hw, hall⟩ := Language.mem_kstar_iff_exists_nonempty.mp h
    refine ⟨rounds, hw, hall, ?_⟩
    rw [Option.getD_none, hw]
    clear h hw
    induction rounds with
    | nil => simp
    | cons v rest ih =>
      have hv : 0 < v.length := List.length_pos_of_ne_nil (hall v (by simp)).2
      have := ih fun u hu => hall u (by simp [hu])
      simp only [List.flatten_cons, List.length_append, List.length_cons]
      omega
  | some n =>
    rw [Option.getD_some]
    change w ∈ (1 + l) ^ n at h
    induction n generalizing w with
    | zero =>
      rw [pow_zero, Language.mem_one] at h
      exact ⟨[], by simp [h], by simp, by simp⟩
    | succ n ih =>
      rw [pow_succ', Language.mem_mul] at h
      obtain ⟨u, hu, v, hv, rfl⟩ := h
      obtain ⟨rounds, rfl, hall, hlen⟩ := ih hv
      -- an empty round is left out
      by_cases hu0 : u = []
      · exact ⟨rounds, by simp [hu0], hall, Nat.le_succ_of_le hlen⟩
      · have hul : u ∈ l := hu.resolve_left fun h1 => hu0 ((Language.mem_one u).mp h1)
        refine ⟨u :: rounds, rfl, ?_, Nat.succ_le_succ hlen⟩
        intro x hx
        rcases List.mem_cons.mp hx with rfl | hx
        · exact ⟨hul, hu0⟩
        · exact hall x hx

section Complete

variable {step : Cursor → List Cursor} {l : Language Char}

theorem waysTimes_finds_word (hstep : ∀ s w rest, w ∈ l → s.ahead = w ++ rest → ∃ t ∈ step s, t.ahead = rest)
    (n : Nat) {s : Cursor} {w rest : Text} (hw : w ∈ l ^ n) (hs : s.ahead = w ++ rest) :
    ∃ t ∈ waysTimes step n s, t.ahead = rest := by
  induction n generalizing s w with
  | zero =>
    rw [pow_zero, Language.mem_one] at hw
    exact ⟨s, by simp [waysTimes], by rw [hs, hw, List.nil_append]⟩
  | succ n ih =>
    rw [pow_succ', Language.mem_mul] at hw
    obtain ⟨u, hu, v, hv, rfl⟩ := hw
    obtain ⟨m, hm, hma⟩ := hstep s u (v ++ rest) hu (by rw [hs, List.append_assoc])
    obtain ⟨t, ht, hta⟩ := ih hv hma
    exact ⟨t, mem_waysTimes_succ.mpr ⟨m, hm, ht⟩, hta⟩

theorem waysUpTo_finds_rounds
    (hstep : ∀ s w rest, w ∈ l → s.ahead = w ++ rest → ∃ t ∈ step s, t.ahead = rest) (reluctant : Bool)
    {rounds : List Text} (hall : ∀ v ∈ rounds, v ∈ l ∧ v ≠ []) {n : Nat} (hn : rounds.length ≤ n) {s : Cursor}
    {rest : Text} (hs : s.ahead = rounds.flatten ++ rest) :
    ∃ t ∈ waysUpTo step reluctant n s, t.ahead = rest := by
  induction rounds generalizing n s with
  | nil =>
    refine ⟨s, ?_, by simpa using hs⟩
    cases n with
    | zero => simp [waysUpTo]
    | succ n => exact mem_waysUpTo_succ.mpr (Or.inl rfl)
  | cons v others ih =>
    obtain ⟨n, rfl⟩ : ∃ m, n = m + 1 := Nat.exists_eq_succ_of_ne_zero (by simp at hn; omega)
    obtain ⟨hv, hv0⟩ := hall v (by simp)
    rw [List.flatten_cons, List.append_assoc] at hs
    obtain ⟨u, hu, hua⟩ := hstep s v (others.flatten ++ rest) hv hs
    obtain ⟨t, ht, hta⟩ := ih (fun x hx => hall x (by simp [hx])) (Nat.le_of_succ_le_succ hn) hua
    -- the round moved on, so the loop is not cut short here
    have hmoved : u.ahead.length < s.ahead.length := by
      have := List.length_pos_of_ne_nil hv0
      rw [hua, hs]
      simp only [List.length_append]
      omega
    exact ⟨t, mem_waysUpTo_succ.mpr (Or.inr ⟨u, hu, by rw [if_pos hmoved]; exact ht⟩), hta⟩

end Complete

/-- Every word of a regular expression that is ahead is taken off by some way. -/
theorem exists_way_of_mem_language {r : Regex} (hr : r.IsRegular) {s : Cursor} {w rest : Text}
    (hw : w ∈ r.language) (hs : s.ahead = w ++ rest) : ∃ t ∈ r.ways s, t.ahead = rest := by
  induction r generalizing s w rest with
  | empty =>
    have hw0 : w = [] := (Language.mem_one w).mp hw
    exact ⟨s, by simp [ways], by rw [hs, hw0, List.nil_append]⟩
  | oneOf set =>
    obtain ⟨c, hc, rfl⟩ := mem_language_oneOf.mp hw
    exact ⟨_, mem_ways_oneOf.mpr ⟨c, rest, hs, hc, rfl⟩, rfl⟩
  | seq first second ih₁ ih₂ =>
    obtain ⟨u, hu, v, hv, rfl⟩ := Language.mem_mul.mp hw
    obtain ⟨m, hm, hma⟩ := ih₁ hr.1 hu (by rw [hs, List.append_assoc])
    obtain ⟨t, ht, hta⟩ := ih₂ hr.2 hv hma
    exact ⟨t, mem_ways_seq.mpr ⟨m, hm, ht⟩, hta⟩
  | alt first second ih₁ ih₂ =>
    rcases hw with hw | hw
    · obtain ⟨t, ht, hta⟩ := ih₁ hr.1 hw hs
      exact ⟨t, List.mem_append_left _ ht, hta⟩
    · obtain ⟨t, ht, hta⟩ := ih₂ hr.2 hw hs
      exact ⟨t, List.mem_append_right _ ht, hta⟩
  | capture index body ih =>
    obtain ⟨u, hu, hua⟩ := ih hr hw hs
    exact ⟨_, mem_ways_capture.mpr ⟨u, hu, rfl⟩, hua⟩
  | loop body least most reluctant ih =>
    obtain ⟨u, hu, v, hv, rfl⟩ := Language.mem_mul.mp hw
    have hstep : ∀ (s : Cursor) w rest, w ∈ body.language → s.ahead = w ++ rest →
        ∃ t ∈ body.ways s, t.ahead = rest := fun _ _ _ => ih hr
    obtain ⟨m, hm, hma⟩ := waysTimes_finds_word hstep least hu (by rw [hs, List.append_assoc])
    obtain ⟨others, rfl, hall, hlen⟩ := exists_nonempty_rounds hv
    -- without a bound there is a round for every character ahead, as many as rounds that are not empty
    have hn : others.length ≤ rounds least most m.toPlace := by
      cases most with
      | none =>
        simp only [Option.map_none, Option.getD_none] at hlen
        simp only [rounds, hma, List.length_append]
        omega
      | some k => simpa [rounds] using hlen
    obtain ⟨t, ht, hta⟩ := waysUpTo_finds_rounds hstep reluctant hall hn hma
    exact ⟨t, mem_ways_loop.mpr ⟨m, hm, ht⟩, hta⟩
  | possessive => exact hr.elim
  | atomic => exact hr.elim
  | look => exact hr.elim
  | backref => exact hr.elim
  | anchor => exact hr.elim

/-- A regular expression matches exactly the words of its language. -/
theorem accepts_iff_mem_language {r : Regex} (hr : r.IsRegular) {t : Text} :
    r.accepts t = true ↔ t ∈ r.language := by
  rw [accepts_iff]
  constructor
  · rintro ⟨s, hs, hend⟩
    obtain ⟨w, hw, htw⟩ := exists_mem_language hr hs
    rw [hend, List.append_nil] at htw
    exact (show t = w from htw) ▸ hw
  · intro ht
    exact exists_way_of_mem_language hr ht (by simp [Cursor.ofText])

/-! ### Characters that are in no word -/

/-- Whether no set of characters in an expression holds `c`. -/
def avoids (c : Char) : Regex → Bool
  | empty => true
  | oneOf set => !set.holds c
  | seq first second => first.avoids c && second.avoids c
  | alt first second => first.avoids c && second.avoids c
  | capture _ body => body.avoids c
  | loop body _ _ _ => body.avoids c
  | _ => false

theorem not_mem_of_mem_pow {c : Char} {l : Language Char} (h : ∀ w ∈ l, c ∉ w) {n : Nat} :
    ∀ w ∈ l ^ n, c ∉ w := by
  intro w hw hmem
  obtain ⟨rounds, rfl, -, hrounds⟩ := Language.mem_pow.mp hw
  obtain ⟨v, hv, hc⟩ := List.mem_flatten.mp hmem
  exact h v (hrounds v hv) hc

theorem not_mem_of_mem_upTo {c : Char} {l : Language Char} (h : ∀ w ∈ l, c ∉ w) {most : Option Nat} :
    ∀ w ∈ upTo l most, c ∉ w := by
  cases most with
  | none =>
    intro w hw
    rw [upTo, Language.kstar_eq_iSup_pow, Language.mem_iSup] at hw
    obtain ⟨n, hn⟩ := hw
    exact not_mem_of_mem_pow h w hn
  | some n =>
    apply not_mem_of_mem_pow
    intro w hw
    rcases hw with rfl | hw
    · exact List.not_mem_nil
    · exact h w hw

theorem not_mem_of_avoids {c : Char} {r : Regex} (h : r.avoids c = true) : ∀ w ∈ r.language, c ∉ w := by
  induction r with
  | empty =>
    rintro w rfl
    exact List.not_mem_nil
  | oneOf set =>
    rintro w ⟨d, hd, rfl⟩ hmem
    rw [avoids, List.mem_singleton.mp hmem, hd] at h
    cases h
  | seq first second ih₁ ih₂ =>
    rw [avoids, Bool.and_eq_true] at h
    rintro w ⟨u, hu, v, hv, rfl⟩ hmem
    rcases List.mem_append.mp hmem with hmem | hmem
    · exact ih₁ h.1 u hu hmem
    · exact ih₂ h.2 v hv hmem
  | alt first second ih₁ ih₂ =>
    rw [avoids, Bool.and_eq_true] at h
    rintro w (hw | hw)
    · exact ih₁ h.1 w hw
    · exact ih₂ h.2 w hw
  | capture index body ih => exact ih h
  | loop body least most reluctant ih =>
    have hbody := ih h
    rintro w ⟨u, hu, v, hv, rfl⟩ hmem
    rcases List.mem_append.mp hmem with hmem | hmem
    · exact not_mem_of_mem_pow hbody u hu hmem
    · exact not_mem_of_mem_upTo hbody v hv hmem
  | possessive | atomic | look | backref | anchor => cases h

end Routing.Regex
