import Routing.Proofs.Route.Precedence
import Routing.Proofs.Route.Rewriting
import Routing.Proofs.Route.Splitting

/-!
# Written values are read again

A written text need not be read as it was written: another way to compose it may come first, and a run may be cut
elsewhere. It is read as it was written where it can be composed in one way only, as where slashes keep the variables
apart (`readsOnce_withRun`), and where its runs are cut into the items that they were written for (`Route.ReadsBack`).
-/

namespace Routing

open Pattern
open scoped Computability

namespace Pattern

/-! ### Repeated variables -/

section Rounds

variable {delimiter : Text} {ts : List Token}

/-- The tokens of a repeated group with a variable. -/
theorem round_of_mem_boundOf (hts : GroupsAll (FaithfulGroup delimiter) ts) (hone : OneEach ts)
    (hspliceable : Spliceable false ts) {name raw c : Text} (h : (⟨name, some raw⟩, c) ∈ boundOf none ts) :
    ∃ children, tokenize delimiter raw = .ok ⟨raw, children⟩ ∧
      boundOf (some raw) children = [(⟨name, some raw⟩, c)] ∧ Spliceable false children := by
  induction ts using tokens_induction with
  | nil => simp [boundOf] at h
  | literal text rest ih =>
    rw [GroupsAll] at hts
    rw [OneEach] at hone
    rw [Spliceable] at hspliceable
    exact ih hts hone hspliceable (by rwa [boundOf] at h)
  | var other capture rest ih =>
    rw [GroupsAll] at hts
    rw [OneEach] at hone
    rw [Spliceable] at hspliceable
    exact ih hts hone hspliceable.2 (by simpa [boundOf] using h)
  | group suffix binds around children rest ihc ih =>
    rw [GroupsAll] at hts
    rw [OneEach] at hone
    rw [Spliceable, Bool.false_or] at hspliceable
    rw [boundOf, List.mem_append] at h
    rcases h with h | h
    · have hchildren : Spliceable false children := by
        rcases hspliceable.1 with ⟨other, capture, rfl⟩ | hchildren
        · simp [Spliceable]
        · cases hrepeats : suffix.repeats with
          | false => exact hrepeats ▸ hchildren
          | true => exact (hrepeats ▸ hchildren).outside
      cases hrepeats : suffix.repeats with
      | false =>
        rw [within, hrepeats] at h
        rw [if_neg (ne_true_of_eq_false hrepeats)] at hone
        exact ihc hts.2.1 hone.1 hchildren h
      | true =>
        rw [within, if_pos hrepeats, Option.none_or] at h
        rw [if_pos hrepeats, ← length_boundOf (some around)] at hone
        -- there is no other variable in the group
        obtain ⟨b, hb⟩ := List.length_eq_one_iff.mp (Nat.le_antisymm hone.1 (List.length_pos_of_mem h))
        rw [hb, List.mem_singleton] at h
        subst h
        have hraw : some raw = some around := repeated_of_mem_boundOf (hb ▸ List.mem_singleton_self _)
        obtain rfl := Option.some.inj hraw
        exact ⟨children, hts.1.tokenized, hb, hchildren⟩
    · exact ih hts.2.2 hone.2 hspliceable.2 h

/-- Whether a variable may have a text in a match. -/
def IsTaken (delimiter : Text) (v : Variable) (c w : Text) : Prop :=
  match v.repeated with
  | none => w ∈ takenBy c
  | some raw => ∃ children, tokenize delimiter raw = .ok ⟨raw, children⟩ ∧ w ∈ (wordsBy takenBy children)∗

theorem times_le_kstar {suffix : Suffix} (hrepeats : suffix.repeats = true) {l : Language Char} {w : Text}
    (h : w ∈ suffix.times l) : w ∈ l∗ := by
  cases suffix with
  | optional => cases hrepeats
  | star => exact h
  | plus =>
    have hle : l * l∗ ≤ l∗ := mul_kstar_le_kstar
    exact hle h

theorem Composes.isTaken {σ : Text → Option Text} {t : Text} (h : Composes σ ts t)
    (hts : GroupsAll (FaithfulGroup delimiter) ts) {v : Variable} {c w : Text} (hmem : (v, c) ∈ boundOf none ts)
    (hσ : σ v.name = some w) : IsTaken delimiter v c w := by
  induction h with
  | nil => simp [boundOf] at hmem
  | literal _ ih =>
    rw [GroupsAll] at hts
    exact ih hts (by rwa [boundOf] at hmem)
  | var hname hv _ ih =>
    rw [GroupsAll] at hts
    rw [boundOf, List.mem_cons] at hmem
    rcases hmem with hfirst | hmem
    · obtain ⟨rfl, rfl⟩ := Prod.mk.inj hfirst
      rw [hname, Option.some.injEq] at hσ
      exact hσ ▸ hv
    · exact ih hts hmem
  | @rounds suffix binds raw children x rest t hrepeats hname hx _ ih =>
    rw [GroupsAll] at hts
    rw [boundOf, List.mem_append, within, if_pos hrepeats, Option.none_or] at hmem
    rcases hmem with hmem | hmem
    · rw [hname _ (mem_namesOf hmem), Option.some.injEq] at hσ
      rw [IsTaken, repeated_of_mem_boundOf hmem]
      exact ⟨children, hts.1.tokenized, times_le_kstar hrepeats (hσ ▸ hx)⟩
    · exact ih hts.2.2 hmem
  | absent hname _ ih =>
    rw [GroupsAll] at hts
    rw [boundOf, List.mem_append] at hmem
    rcases hmem with hmem | hmem
    · have hnone := hname _ (mem_namesOf hmem)
      rw [hnone] at hσ
      cases hσ
    · exact ih hts.2.2 hmem
  | present _ _ ihinner ih =>
    rw [GroupsAll] at hts
    rw [boundOf, List.mem_append] at hmem
    rcases hmem with hmem | hmem
    · exact ihinner hts.2.1 hmem
    · exact ih hts.2.2 hmem

/-- Whether an expression takes the rounds of some tokens, and composes each one of what it captures of it. -/
structure IsSplitter (splitter : Regex) (children : List Token) : Prop where
  regular : splitter.IsRegular
  captures : splitter.captureCount = 1
  language : splitter.language = wordsBy takenBy children
  composes : ∀ s t : Regex.Cursor, t ∈ splitter.ways { s with captures := [] } →
    ∃ w, Composes (fun _ => t.captured 1) children w

/-- The expression of a round with one variable is a splitter. -/
theorem isSplitter_of_read {children : List Token} {v : Variable} {c : Text} {inside : Option Text}
    (hbound : boundOf inside children = [(v, c)]) (hc : IsPlainCapture c) (hs : Spliceable false children)
    {splitter : Regex} (hread : Regex.read (regexOf false children) = .ok splitter) : IsSplitter splitter children := by
  have hnames := namesOf_of_boundOf hbound
  have hcaptures : ∀ c ∈ capturesOf children, IsPlainCapture c := by
    rw [capturesOf_of_boundOf hbound]
    exact List.forall_mem_singleton.mpr hc
  have hone : OneEach children := oneEach_of_length (by rw [hnames]; exact Nat.le_refl 1)
  obtain ⟨items, hreads, hitems⟩ := exists_realizes hcaptures hs hone 0
  obtain ⟨e, he, hregular, hlanguage⟩ := (denotes_regexOf hcaptures hs 0).read
  rw [hread, Except.ok.injEq] at he
  subst he
  have hsplitter := hreads.read
  rw [hread, Except.ok.injEq] at hsplitter
  subst hsplitter
  refine ⟨hregular, ?_, hlanguage, fun s t ht => ?_⟩
  · rw [hitems.captureCount, hnames]
    rfl
  · obtain ⟨w, -, -, hall⟩ := hitems.composes ht fun _ _ => rfl
    refine ⟨w, hall _ fun i x hi => ?_⟩
    rw [hnames] at hi
    cases i with
    | zero => rfl
    | succ i => cases hi

end Rounds

/-! ### Texts that are read once -/

section ReadsOnce

/-- The rounds of a slash and a variable are the items of a list. -/
theorem mem_kstar_round {name c v : Text} : v ∈ (wordsBy takenBy [.literal ['/'], .variable name c])∗ ↔
    ∃ items : List Text, (∀ x ∈ items, x ∈ takenBy c) ∧ v = runText items := by
  have hround : wordsBy takenBy [.literal ['/'], .variable name c] = {['/']} * takenBy c := by
    rw [wordsBy, wordsBy, wordsBy, mul_one]
  rw [hround]
  exact mem_items

/-- A pattern of default captures that slashes keep apart is spelled as what it is composed of. -/
theorem Composes.spells {σ : Text → Option Text} {free : Bool} {steps : List Token} {last : Option Text} {t : Text}
    (hsteps : Spaced free steps) (h : Composes σ (withRun steps last) t) :
    Spells (withRun steps last) ((namesOf (withRun steps last)).map fun name => (σ name).getD []) t := by
  induction hsteps generalizing t with
  | nil =>
    cases last with
    | none =>
      rw [composes_nil.mp h]
      exact .nil
    | some name =>
      obtain ⟨v, u, rfl, hσ, hv, hu⟩ := (composes_rounds rfl).mp h
      obtain ⟨items, hitems, rfl⟩ := mem_kstar_round.mp hv
      rw [takenBy_slash] at hitems
      have hname : σ name = some (runText items) := hσ name (by simp [namesOf, Token.names])
      have hnames : namesOf (withRun [] (some name)) = [name] := by simp [withRun, runToken, namesOf, Token.names]
      rw [composes_nil.mp hu, List.append_nil, hnames, List.map_singleton, hname, Option.getD_some]
      exact .run hitems
  | literal hrest ih =>
    rw [withRun_cons] at h ⊢
    obtain ⟨u, rfl, hu⟩ := composes_literal.mp h
    exact .literal (ih hu)
  | @var name rest hrest ih =>
    rw [withRun_cons] at h ⊢
    obtain ⟨v, u, rfl, hσ, hv, hu⟩ := composes_variable.mp h
    rw [takenBy_slash] at hv
    rw [namesOf, Token.names, List.singleton_append, List.map_cons, hσ, Option.getD_some]
    exact .var hv (ih hu)

/-- Where slashes keep default captures apart, a text is read in one way only. -/
theorem readsOnce_withRun {free : Bool} {steps : List Token} (hsteps : Spaced free steps) (last : Option Text)
    (t : Text) : ReadsOnce (withRun steps last) t := by
  intro σ τ u hσ hτ hu name hname
  have hends : ∃ e, (e = [] ∨ e = ['/']) ∧ t = u ++ e :=
    hu.elim (fun h => ⟨[], Or.inl rfl, by rw [h, List.append_nil]⟩) fun h => ⟨['/'], Or.inr rfl, h⟩
  obtain ⟨e, he, ht⟩ := hends
  have hsame := Spells.unique hsteps (hσ.spells hsteps) (hτ.spells hsteps) he ht
  exact (List.map_inj_left.mp hsame name hname).symm

theorem boundOf_literalRun {literal name capture : Text} : boundOf none (literalRun literal name capture) =
    [(⟨name, some (written (roundTokens name capture))⟩, capture)] := by
  simp [literalRun, roundTokens, boundOf, within, Suffix.repeats]

/-- So is a text of a literal and a run, if no item is empty and none has a slash. -/
theorem IsRunPattern.readsOnce {literal name capture : Text} (h : IsRunPattern literal name capture)
    (hempty : [] ∉ takenBy capture) (t : Text) : ReadsOnce (literalRun literal name capture) t := by
  have hread : ∀ {σ t}, Composes σ (literalRun literal name capture) t →
      ∃ items : List Text, (∀ x ∈ items, x ∈ without '/') ∧ σ name = some (runText items) ∧
        t = literal ++ runText items := by
    intro σ t hσ
    obtain ⟨u, rfl, hu⟩ := composes_literal.mp hσ
    obtain ⟨v, w, rfl, hv, hmem, hw⟩ := (composes_rounds rfl).mp hu
    obtain ⟨items, hitems, rfl⟩ := mem_kstar_round.mp hmem
    refine ⟨items, fun x hx => ⟨fun hnil => hempty (hnil ▸ hitems x hx), h.slashless x (hitems x hx)⟩, ?_, ?_⟩
    · exact hv name (by simp [roundTokens, namesOf, Token.names])
    · rw [composes_nil.mp hw, List.append_nil]
  intro σ τ u hσ hτ hu other hother
  rw [namesOf_literalRun, List.mem_singleton] at hother
  obtain ⟨items, hitems, hs, rfl⟩ := hread hσ
  obtain ⟨others, -, ht, rfl⟩ := hread hτ
  rw [hother, hs, ht]
  rcases hu with hsame | hslash
  · rw [List.append_cancel_left hsame]
  · rw [List.append_assoc] at hslash
    exact absurd (List.append_cancel_left hslash) (runText_ne hitems _)

end ReadsOnce

end Pattern

/-! ### Values of texts -/

namespace Route

/-- A value depends on the text alone that was taken, and no text is as good as an empty one. -/
theorem variableValue_congr (p : RoutePattern) (v : Variable) {s t : Option Text} (h : s.getD [] = t.getD []) :
    variableValue p v s = variableValue p v t := by
  simp only [variableValue, h]

/-- The items of a run are what the variable took in some rounds. There is one if every round has one, unless the run is
empty. -/
theorem exists_splitRun {splitter : Regex} {children : List Token} (h : IsSplitter splitter children) (run : Text) :
    ∃ items, splitRun splitter run = .ok items ∧
      (∀ item ∈ items, ∃ x w, Composes (fun _ => some x) children w ∧ item = roundValue x) ∧
      ∀ name, (∀ σ t, Composes σ children t → σ name ≠ none) → run ∈ (wordsBy takenBy children)∗ → run ≠ [] →
        items ≠ [] := by
  have hsound := Regex.crosses_search (Regex.hasPossessive_of_isRegular h.regular) run
  have htaken : ∀ round ∈ splitter.search run,
      roundText splitter round = round.captured 1 ∧ ∃ w, Composes (fun _ => round.captured 1) children w := by
    intro round hround
    obtain ⟨s, hs⟩ := Regex.exists_way_of_mem_searchFrom hround
    refine ⟨?_, h.composes s round hs⟩
    rw [roundText, h.captures, List.range_one, List.findSome?_singleton]
  refine ⟨(splitter.search run).filterMap fun round => (roundText splitter round).map roundValue, ?_, ?_, ?_⟩
  · rw [splitRun]
    simp only [hsound, Bool.false_eq_true, if_false]
    rfl
  · intro item hitem
    obtain ⟨round, hround, hvalue⟩ := List.mem_filterMap.mp hitem
    obtain ⟨htext, w, hw⟩ := htaken round hround
    obtain ⟨x, hx, rfl⟩ := Option.map_eq_some_iff.mp hvalue
    exact ⟨x, w, htext.symm.trans hx ▸ hw, rfl⟩
  · intro name hsolid hrun hne
    -- the first round is a match at the start
    obtain ⟨words, rfl, hwords⟩ := Language.mem_kstar.mp hrun
    obtain ⟨word, words, rfl⟩ : ∃ word rest, words = word :: rest := by
      cases words with
      | nil => exact absurd rfl hne
      | cons word words => exact ⟨word, words, rfl⟩
    have hword : word ∈ splitter.language := h.language ▸ hwords word List.mem_cons_self
    obtain ⟨s, hs, -⟩ := Regex.exists_way_of_mem_language h.regular (s := .ofText (word :: words).flatten) hword rfl
    obtain ⟨round, rounds, hrounds⟩ :=
      List.exists_cons_of_ne_nil (Regex.search_ne_nil (Regex.isSome_matchStart.mpr ⟨s, hs⟩))
    obtain ⟨htext, w, hw⟩ := htaken round (hrounds ▸ List.mem_cons_self)
    obtain ⟨x, hx⟩ := Option.ne_none_iff_exists'.mp (hsolid _ w hw)
    rw [hrounds, List.filterMap_cons_some (by rw [htext, hx, Option.map_some])]
    exact List.cons_ne_nil _ _

/-- The value that a match without a query gives for a path variable: an absent value does not hide a default. -/
def mergedValue (r : Route) (name : Text) (value : Value) : Value :=
  if isAbsent value then (r.defaults.get? name).getD value else value

/-- Whether what is written for a variable gives its value again. -/
def ReadsBack (r : Route) (params : Mapping Value) (v : Variable) : Prop :=
  ∀ value u, params.get? v.name = some value → IsWrittenFor r.delimiter v value u →
    ∃ again, variableValue r.pattern v (some u) = .ok again ∧ r.mergedValue v.name again = value

/-- A text is read back where it is not empty, outside of repeated groups. -/
theorem readsBack_of_text {r : Route} {params : Mapping Value} {v : Variable} (hv : v.repeated = none)
    (hvalue : ∀ value, params.get? v.name = some value → value = .null ∨ ∃ t, t ≠ [] ∧ value = .str t) :
    r.ReadsBack params v := by
  intro value u hget hu
  obtain ⟨name, repeated⟩ := v
  obtain rfl : repeated = none := hv
  obtain ⟨hgiven, rfl⟩ := hu
  rcases hvalue value hget with rfl | ⟨t, ht, rfl⟩
  · cases hgiven
  · have hread := variableValue_text (p := r.pattern) ht hget
    rw [codedParam, paramValue, hget] at hread
    exact ⟨_, hread, rfl⟩

end Route

end Routing
