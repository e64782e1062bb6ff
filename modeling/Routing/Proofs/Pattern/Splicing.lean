import Routing.Proofs.Pattern.Brackets
import Routing.Proofs.Pattern.Words
import Routing.Proofs.Regex.Context

/-!
# Captures among other texts

A rule puts parentheses around a capture, but not inside of a repeated group: there the text of the capture stands
among the texts around it as it is. It means there what it means by itself if no bar of it is outside of parentheses of
its own and no escape at its end takes digits that follow (`Spliceable`). Under that condition the regular expression of
some tokens takes exactly their words, where a variable has the values that its capture takes (`denotes_regexOf`).
-/

namespace Routing.Pattern

open Regex
open scoped Computability

/-- Whether a capture is a regular expression by itself, written without captures of its own. -/
structure IsPlainCapture (c : Text) : Prop where
  valid : ∃ e, Regex.read c = .ok e
  plain : ∀ l ∈ Lexeme.all c, l.isPlain = true

/-- Whether the captures among some tokens mean the same where their texts stand without parentheses. One that fills a
group has the parentheses of the group. -/
def Spliceable (inside : Bool) : List Token → Prop
  | [] => True
  | .literal _ :: rest => Spliceable inside rest
  | .variable _ c :: rest =>
    (inside = true → depthAfter 0 (brackets (Lexeme.all c)) = some 0 ∧
      Lexeme.all (c ++ regexOf inside rest) = Lexeme.all c ++ Lexeme.all (regexOf inside rest)) ∧ Spliceable inside rest
  | .group suffix _ _ children :: rest =>
    ((∃ name c, children = [.variable name c]) ∨ Spliceable (inside || suffix.repeats) children) ∧
      Spliceable inside rest

/-- Inside of a repeated group more is asked for. -/
theorem Spliceable.outside {ts : List Token} (h : Spliceable true ts) : Spliceable false ts := by
  induction ts using tokens_induction with
  | nil => simp [Spliceable]
  | literal text rest ih =>
    rw [Spliceable] at h ⊢
    exact ih h
  | var name text rest ih =>
    rw [Spliceable] at h ⊢
    exact ⟨nofun, ih h.2⟩
  | group suffix binds raw children rest ihc ih =>
    rw [Spliceable] at h ⊢
    refine ⟨h.1.imp_right fun hchildren => ?_, ih h.2⟩
    cases hrepeats : suffix.repeats with
    | false => exact ihc hchildren
    | true => exact hchildren

/-- An expression without captures of its own is read in a parenthesis as it is read by itself. -/
theorem readsInside_of_bare {t : Text} {e : Regex} (he : Regex.read t = .ok e)
    (hbare : ∀ l ∈ Lexeme.all t, l.isBare = true) (index : Nat) : ReadsInside index t e 0 := by
  intro r closing y hflags hindex
  obtain ⟨f, hbody, -, hsteps⟩ := Reading.steps_of_read he hbare
  refine ⟨(Reading.enter r closing r.frame.flags).frame.take f, rfl, ?_, ?_⟩
  · rw [hbody]
    simp [Frame.body, Frame.branch, Frame.take, Reading.enter]
  · rw [all_append (brackets_of_read he).1 (separate_closing y), Reading.steps_append,
      hsteps (r.enter closing r.frame.flags) hflags (Or.inl rfl)]
    exact steps_all_of_next rfl rfl

/-! ### Texts that denote words -/

theorem takenBy_of_read {t : Text} {e : Regex} (he : Regex.read t = .ok e) (hregular : e.IsRegular) :
    takenBy t = e.language := by
  ext w
  have hsound : sound e (e.matchWhole w) = .ok (e.matchWhole w) :=
    sound_matchWhole (hasPossessive_of_isRegular hregular) w
  rw [← accepts_iff_mem_language hregular, Regex.accepts, Option.isSome_iff_exists]
  constructor
  · rintro ⟨r, found, hr, hfound⟩
    rw [he, Except.ok.injEq] at hr
    rw [← hr, hsound, Except.ok.injEq] at hfound
    exact ⟨found, hfound⟩
  · rintro ⟨found, hfound⟩
    exact ⟨e, found, he, by rw [hsound, hfound]⟩

/-- Whether a text is read, before one that is separate from it, as items that take some words. -/
def Denotes (index : Nat) (t : Text) (captures : Nat) (l : Language Char) : Prop :=
  ∃ items, ReadsApart index t items captures ∧ (seqAll (items.map Item.regex)).IsRegular ∧
    (seqAll (items.map Item.regex)).language = l

/-- Whether a text is read, inside of a parenthesis, as an expression that takes some words. -/
def DenotesInside (index : Nat) (t : Text) (captures : Nat) (l : Language Char) : Prop :=
  ∃ body, ReadsInside index t body captures ∧ body.IsRegular ∧ body.language = l

section Denotes

variable {index m n : Nat} {t u : Text} {l : Language Char} {items : List Item}

theorem isRegular_seqAll_append {a b : List Regex} :
    (seqAll (a ++ b)).IsRegular ↔ (seqAll a).IsRegular ∧ (seqAll b).IsRegular := by
  induction a with
  | nil => exact (iff_of_eq (true_and _)).symm
  | cons r a ih => exact (and_congr_right fun _ => ih).trans and_assoc.symm

theorem Denotes.inside (h : Denotes index t n l) : DenotesInside index t n l := by
  obtain ⟨items, hreads, hregular, hlanguage⟩ := h
  exact ⟨_, hreads.inside, hregular, hlanguage⟩

/-- Items that are read on their own, before a text. -/
theorem Denotes.after (hu : Denotes (index + m) u n l) (ht : Reads index t items m)
    (hitems : (seqAll (items.map Item.regex)).IsRegular) (hm : Mannerless u) :
    Denotes index (t ++ u) (m + n) ((seqAll (items.map Item.regex)).language * l) := by
  obtain ⟨others, hreads, hregular, hlanguage⟩ := hu
  refine ⟨items ++ others, ht.append_apart hreads hm, ?_, ?_⟩
  · rw [List.map_append]
    exact isRegular_seqAll_append.mpr ⟨hitems, hregular⟩
  · rw [List.map_append, language_seqAll_append, hlanguage]

/-- A literal, before a text. -/
theorem Denotes.literal (hu : Denotes index u n l) (text : Text) (hm : Mannerless u) :
    Denotes index (escape text ++ u) n ({text} * l) := by
  have hregular :
      (seqAll ((text.map fun c => (⟨.oneOf (.single c false), .single⟩ : Item)).map Item.regex)).IsRegular := by
    rw [List.map_map]
    exact isRegular_literal text
  have hafter := @Denotes.after index 0 n (escape text) u l _ hu (reads_escape index text) hregular hm
  rw [List.map_map, Nat.zero_add] at hafter
  rw [← language_literal text]
  exact hafter

theorem Denotes.lexes (h : Denotes index t n l) : Lexes t := by
  obtain ⟨items, hreads, -⟩ := h
  have hsteps := hreads { Reading.start with captures := index } [] rfl rfl separate_nil
  rw [List.append_nil, all_nil, Reading.steps_nil] at hsteps
  exact Reading.not_broken_of_steps hsteps

theorem Denotes.read (h : Denotes 0 t n l) : ∃ e, Regex.read t = .ok e ∧ e.IsRegular ∧ e.language = l := by
  obtain ⟨items, hreads, hregular, hlanguage⟩ := h
  exact ⟨_, hreads.read, hregular, hlanguage⟩

/-- The text of the paths is read as well. -/
theorem Denotes.read_whole (h : Denotes 0 t n l) : ∃ e, Regex.read t = .ok e ∧
    Regex.read (Pattern.part t ++ ['/', '?']) = .ok (seqAll [e, optionalSlash]) ∧ e.IsRegular ∧ e.language = l := by
  obtain ⟨items, hreads, hregular, hlanguage⟩ := h
  exact ⟨_, hreads.read, hreads.read_whole, hregular, hlanguage⟩

/-- A group, before a text. -/
theorem DenotesInside.part (h : DenotesInside index t n l) (suffix : Suffix) :
    ∃ body, Reads index (part t ++ [suffix.symbol]) [⟨body, .counted⟩] n ∧ body.IsRegular ∧
      body.language = suffix.times l := by
  obtain ⟨body, hreads, hregular, hlanguage⟩ := h
  have hpart := reads_part hreads suffix
  rw [nest_of_isRegular hregular] at hpart
  exact ⟨suffix.loop body, hpart, hregular, by rw [language_suffix_loop, hlanguage]⟩

/-- A run, before a text. -/
theorem DenotesInside.run (h : DenotesInside (index + 1) t 0 l) (suffix : Suffix) :
    ∃ body, Reads index ('(' :: (Pattern.part t ++ [suffix.symbol]) ++ [')']) [⟨body, .single⟩] 1 ∧ body.IsRegular ∧
      body.language = suffix.times l := by
  obtain ⟨body, hreads, hregular, hlanguage⟩ := h.part suffix
  refine ⟨_, reads_enclosed hreads.apart.inside (mannerless_cons (by decide) _), ⟨hregular, trivial⟩, ?_⟩
  rw [← hlanguage]
  exact language_seqAll_singleton body

end Denotes

/-! ### Captures -/

section Captures

variable {c : Text} {index : Nat}

theorem IsPlainCapture.bare (h : IsPlainCapture c) : ∀ l ∈ Lexeme.all c, l.isBare = true :=
  fun l hl => Lexeme.isBare_of_isPlain (h.plain l hl)

/-- A capture in parentheses. -/
theorem IsPlainCapture.inside (h : IsPlainCapture c) (index : Nat) : DenotesInside index c 0 (takenBy c) := by
  obtain ⟨e, he⟩ := h.valid
  have hregular := isRegular_of_read he h.plain
  exact ⟨e, readsInside_of_bare he h.bare index, hregular, (takenBy_of_read he hregular).symm⟩

/-- A capture without bars outside of its own parentheses, before a text whose lexemes it leaves alone. -/
theorem IsPlainCapture.before (h : IsPlainCapture c) {u : Text} {n : Nat} {l : Language Char}
    (hdepth : depthAfter 0 (brackets (Lexeme.all c)) = some 0)
    (hall : Lexeme.all (c ++ u) = Lexeme.all c ++ Lexeme.all u) (hu : Denotes index u n l) :
    Denotes index (c ++ u) n (takenBy c * l) := by
  have hu' := hu.lexes
  obtain ⟨others, hreads, hregular, hlanguage⟩ := hu
  obtain ⟨e, he⟩ := h.valid
  have hlexes : Lexes (c ++ u) := by
    rw [Lexes, hall, List.mem_append, not_or]
    exact ⟨(brackets_of_read he).1, hu'⟩
  have hcapture := isRegular_of_read he h.plain
  obtain ⟨f, hbody, hbranches, hsteps⟩ := Reading.steps_of_read he h.bare
  have hitems : e = seqAll (f.items.reverse.map Item.regex) := by
    rw [hbody, Frame.body, hbranches hdepth]
    rfl
  refine ⟨f.items.reverse ++ others, fun r y hflags hindex hy => ?_, ?_, ?_⟩
  · have hextend : ({ r with frame := r.frame.take f } : Reading) = r.extend f.items.reverse 0 := by
      simp [Reading.extend, Frame.take, hbranches hdepth]
    rw [all_append hlexes hy, hall, List.append_assoc, ← all_append hu' hy, Reading.steps_append,
      hsteps r hflags (Or.inr hdepth), hextend]
    refine (hreads (r.extend f.items.reverse 0) y hflags hindex hy).trans ?_
    rw [Reading.extend_extend, Nat.zero_add]
  · rw [List.map_append]
    exact isRegular_seqAll_append.mpr ⟨hitems ▸ hcapture, hregular⟩
  · rw [List.map_append, language_seqAll_append, hlanguage, ← hitems, takenBy_of_read he hcapture]

end Captures

/-! ### The words of a rule -/

/-- The text of some tokens denotes their words. -/
theorem denotes_regexOf {ts : List Token} (hc : ∀ c ∈ capturesOf ts, IsPlainCapture c) {inside : Bool}
    (hs : Spliceable inside ts) (index : Nat) :
    Denotes index (regexOf inside ts) (groupsOf inside ts) (wordsBy takenBy ts) := by
  have hm : ∀ {ts : List Token}, (∀ c ∈ capturesOf ts, IsPlainCapture c) → ∀ inside, Mannerless (regexOf inside ts) :=
    fun hc => mannerless_of_valid fun c hmem => (hc c hmem).valid
  induction ts using tokens_induction generalizing inside index with
  | nil =>
    rw [regexOf, groupsOf, wordsBy]
    exact ⟨[], (reads_nil index).apart, trivial, rfl⟩
  | literal text rest ih =>
    rw [capturesOf] at hc
    rw [Spliceable] at hs
    rw [regexOf, groupsOf, wordsBy]
    exact (ih hc hs index).literal text (hm hc inside)
  | var name c rest ih =>
    rw [capturesOf, List.forall_mem_cons] at hc
    rw [Spliceable] at hs
    obtain ⟨hplain, hrest⟩ := hc
    cases inside with
    | true =>
      obtain ⟨hdepth, hall⟩ := hs.1 rfl
      rw [regexOf, groupsOf, wordsBy, if_pos rfl, if_pos rfl, Nat.zero_add]
      exact hplain.before hdepth hall (ih hrest hs.2 index)
    | false =>
      obtain ⟨body, hreads, hregular, hlanguage⟩ := hplain.inside (index + 1)
      have henclosed := reads_enclosed hreads (mannerless_of_read hplain.valid.choose_spec)
      have hafter := (ih hrest hs.2 (index + 1)).after henclosed ⟨hregular, trivial⟩ (hm hrest false)
      rw [regexOf, groupsOf, wordsBy, if_neg Bool.false_ne_true, if_neg Bool.false_ne_true, ← hlanguage]
      rwa [List.map_singleton, language_seqAll_singleton] at hafter
  | group suffix binds raw children rest ihc ih =>
    rw [capturesOf, List.forall_mem_append] at hc
    rw [Spliceable] at hs
    obtain ⟨hchildren, hrest⟩ := hc
    have hinner : ∀ index, DenotesInside index (regexOf (inside || suffix.repeats) children)
        (groupsOf (inside || suffix.repeats) children) (wordsBy takenBy children) := by
      intro index
      rcases hs.1 with ⟨name, c, rfl⟩ | hs
      · cases hrepeats : inside || suffix.repeats with
        | true =>
          -- the capture has the parentheses of the group
          rw [regexOf, regexOf, groupsOf, groupsOf, wordsBy, wordsBy, if_pos rfl, if_pos rfl, List.append_nil, mul_one]
          exact (hchildren c (by simp [capturesOf])).inside index
        | false =>
          refine (ihc hchildren ?_ index).inside
          simp [Spliceable]
      · exact (ihc hchildren hs index).inside
    rw [regexOf, groupsOf, wordsBy]
    by_cases hrun : isRun inside suffix children = true
    · have hinside : (inside || suffix.repeats) = true := by simp_all [isRun]
      have hbody := hinner (index + 1)
      rw [hinside, groupsOf_true] at hbody
      obtain ⟨body, hreads, hregular, hlanguage⟩ := hbody.run suffix
      have hafter := (ih hrest hs.2 (index + 1)).after hreads ⟨hregular, trivial⟩ (hm hrest inside)
      rw [List.map_singleton, language_seqAll_singleton, hlanguage] at hafter
      rwa [if_pos hrun, if_pos hrun, hinside]
    · obtain ⟨body, hreads, hregular, hlanguage⟩ := (hinner index).part suffix
      have hafter := (ih hrest hs.2 _).after hreads ⟨hregular, trivial⟩ (hm hrest inside)
      rw [List.map_singleton, language_seqAll_singleton, hlanguage] at hafter
      rwa [if_neg hrun, if_neg hrun]

end Routing.Pattern
