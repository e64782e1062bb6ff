import Routing.Proofs.Regex.Lexing
import Routing.Proofs.Regex.Reading

/-!
# Expressions that can be read anywhere

An expression without references, names of captures and flags for the whole of it is read inside of any other one
(`Completes.capture`). What is open around it and what stands before it makes no difference: a count needs something
before it that may be counted, and an expression that is one by itself has that in itself. So a state of reading may be
exchanged for another one, as long as the same may be counted in both (`Over.steps`).
-/

namespace Routing.Regex

/-- Whether a lexeme may be read wherever parentheses match and counts have something to count. -/
def Lexeme.isPortable : Lexeme → Bool
  | .opening (.capturing (some _)) | .backref _ | .namedRef _ | .flags _ => false
  | _ => true

/-- Whether a text is an expression by itself and can be read inside of others. -/
structure IsPortable (t : Text) : Prop where
  valid : ∃ e, Regex.read t = .ok e
  portable : ∀ l ∈ Lexeme.all t, l.isPortable = true

/-- Whether the last item of a frame may be counted. -/
def Frame.Counts (f : Frame) : Prop := ∃ regex others, f.items = ⟨regex, .single⟩ :: others

theorem Frame.counts_push (f : Frame) (regex : Regex) : (f.push regex .single).Counts := ⟨regex, f.items, rfl⟩

namespace Reading

/-- Whether `r'` has as many open parentheses as `r` and some more around them, and the last item of `r'` may be counted
if that of `r` may. -/
structure Over (base : List Frame) (r r' : Reading) : Prop where
  counts : r.frame.Counts → r'.frame.Counts
  outer : ∃ upper : List Frame, upper.length = r.outer.length ∧ r'.outer = upper ++ base

section Over

variable {base : List Frame} {r r' q : Reading}

theorem over_start (r : Reading) : Over r.outer start r := by
  refine ⟨?_, [], rfl, rfl⟩
  rintro ⟨regex, others, hitems⟩
  cases hitems

/-- The parentheses that are open in both are closed. -/
theorem Over.outer_eq (h : Over base r r') (houter : r.outer = []) : r'.outer = base := by
  obtain ⟨upper, hlength, houter'⟩ := h.outer
  rw [houter, List.length_nil, List.length_eq_zero_iff] at hlength
  rw [houter', hlength, List.nil_append]

/-- What is pushed may be counted in both, or in none. -/
theorem Over.push (h : Over base r r') (regex regex' : Regex) (weight : Weight) :
    Over base (r.push regex weight) (r'.push regex' weight) := by
  refine ⟨?_, h.outer⟩
  rintro ⟨_, _, hitems⟩
  have hweight : weight = .single := congrArg Item.weight (List.cons.inj hitems).1
  subst hweight
  exact Frame.counts_push _ _

/-- There is nothing to count right after a parenthesis. -/
theorem Over.enter (h : Over base r r') (closing closing' : Closing) (flags flags' : Flags) :
    Over base (r.enter closing flags) (r'.enter closing' flags') := by
  obtain ⟨upper, hlength, houter⟩ := h.outer
  refine ⟨?_, r'.frame :: upper, congrArg Nat.succ hlength, congrArg (r'.frame :: ·) houter⟩
  rintro ⟨_, _, hitems⟩
  cases hitems

theorem Over.leave (h : Over base r r') (hq : r.leave = some q) : ∃ q', r'.leave = some q' ∧ Over base q q' := by
  obtain ⟨up, others, hup, rfl⟩ := leave_eq_some.mp hq
  obtain ⟨upper, hlength, houter⟩ := h.outer
  rw [hup] at hlength
  obtain ⟨up', upper, rfl⟩ := List.exists_cons_of_length_eq_add_one hlength
  refine ⟨_, leave_eq_some.mpr ⟨up', upper ++ base, houter, rfl⟩, fun _ => Frame.counts_push _ _, upper, ?_, rfl⟩
  exact Nat.succ.inj hlength

theorem Over.count (h : Over base r r') {least : Nat} {most : Option Nat} {manner : Manner}
    (hq : r.count least most manner = .ok q) : ∃ q', r'.count least most manner = .ok q' ∧ Over base q q' := by
  obtain ⟨hfits, regex, others, hitems, rfl⟩ := count_eq_ok.mp hq
  obtain ⟨regex', others', hitems'⟩ := h.counts ⟨regex, others, hitems⟩
  refine ⟨_, count_eq_ok.mpr ⟨hfits, regex', others', hitems', rfl⟩, ?_, h.outer⟩
  rintro ⟨_, _, hcounted⟩
  cases hcounted

/-- One lexeme. -/
theorem Over.step (h : Over base r r') {l : Lexeme} (hl : l.isPortable = true) (hq : r.step l = .ok q) :
    ∃ q', r'.step l = .ok q' ∧ Over base q q' := by
  cases l with
  | point | set | dot | caret | dollar | anchor =>
    rw [← Except.ok.inj hq]
    exact ⟨_, rfl, h.push _ _ _⟩
  | backref | namedRef | flags => cases hl
  | opening kind =>
    cases kind with
    | plain | atomic | look | flagged =>
      rw [← Except.ok.inj hq]
      exact ⟨_, rfl, h.enter _ _ _ _⟩
    | capturing name =>
      cases name with
      | none =>
        rw [← Except.ok.inj hq]
        have hentered := h.enter (.capture (r.captures + 1)) (.capture (r'.captures + 1)) r.frame.flags r'.frame.flags
        exact ⟨_, rfl, hentered.counts, hentered.outer⟩
      | some name => cases hl
  | closing =>
    obtain ⟨q', hq', hover⟩ := h.leave (wellFormed_eq_ok.mp hq)
    exact ⟨q', wellFormed_eq_ok.mpr hq', hover⟩
  | bar =>
    rw [← Except.ok.inj hq]
    refine ⟨_, rfl, ?_, h.outer⟩
    rintro ⟨_, _, hitems⟩
    cases hitems
  | count least most manner => exact h.count hq
  | comment =>
    rw [← Except.ok.inj hq]
    exact ⟨r', rfl, h⟩
  | broken => cases hq

/-- A run of lexemes. -/
theorem Over.steps (h : Over base r r') {lexemes : List Lexeme} (hl : ∀ l ∈ lexemes, l.isPortable = true)
    (hq : r.steps lexemes = .ok q) : ∃ q', r'.steps lexemes = .ok q' ∧ Over base q q' := by
  induction lexemes generalizing r r' with
  | nil =>
    rw [steps_nil, Except.ok.injEq] at hq
    exact ⟨r', rfl, hq ▸ h⟩
  | cons l lexemes ih =>
    rw [List.forall_mem_cons] at hl
    obtain ⟨s, hs, hq⟩ := steps_cons.mp hq
    obtain ⟨s', hs', hover⟩ := h.step hl.1 hs
    obtain ⟨q', hq', hend⟩ := ih hover hl.2 hq
    exact ⟨q', steps_cons.mpr ⟨s', hs', hq'⟩, hend⟩

end Over

end Reading

/-! ### Texts that complete an expression -/

/-- Whether a text can be read from any state with some parentheses open, and closes them all. -/
structure Completes (outer : List Frame) (y : Text) : Prop where
  portable : ∀ l ∈ Lexeme.all y, l.isPortable = true
  steps : ∀ r : Reading, r.outer = outer → ∃ q, r.steps (Lexeme.all y) = .ok q ∧ q.outer = []

namespace Completes

open Reading

variable {outer : List Frame} {frame : Frame} {l : Lexeme} {t y : Text}

theorem nil : Completes [] [] := by
  refine ⟨by simp [all_nil], fun r hr => ⟨r, ?_, hr⟩⟩
  rw [all_nil, Reading.steps_nil]

theorem read (h : Completes [] t) : ∃ e, Regex.read t = .ok e := by
  obtain ⟨q, hq, houter⟩ := h.steps Reading.start rfl
  exact ⟨_, read_eq_ok.mpr ⟨q, hq, houter, rfl⟩⟩

/-- A text is put together lexeme by lexeme. -/
theorem of_next (hnext : Lexeme.next t = some (l, y)) (hl : l.isPortable = true)
    (hy : ∀ l ∈ Lexeme.all y, l.isPortable = true)
    (hstep : ∀ r : Reading, r.outer = outer →
      ∃ s, r.step l = .ok s ∧ ∃ q, s.steps (Lexeme.all y) = .ok q ∧ q.outer = []) : Completes outer t := by
  have hall := all_of_next hnext
  refine ⟨by rw [hall]; exact List.forall_mem_cons.mpr ⟨hl, hy⟩, fun r hr => ?_⟩
  obtain ⟨s, hs, q, hq, hend⟩ := hstep r hr
  exact ⟨q, by rw [hall]; exact steps_cons.mpr ⟨s, hs, hq⟩, hend⟩

theorem point (h : Completes outer y) {n : Nat} (hnext : Lexeme.next t = some (.point n, y)) : Completes outer t :=
  of_next hnext rfl h.portable fun _ hr => ⟨_, rfl, h.steps _ hr⟩

/-- A parenthesis is opened, whatever was read before it. -/
theorem opening (h : ∀ frame, Completes (frame :: outer) y) {kind : Opening}
    (hnext : Lexeme.next t = some (.opening kind, y)) (hkind : kind = .plain ∨ kind = .capturing none) :
    Completes outer t := by
  have hportable : Lexeme.isPortable (.opening kind) = true := by rcases hkind with rfl | rfl <;> rfl
  refine of_next hnext hportable (h start.frame).portable fun r hr => ?_
  rcases hkind with rfl | rfl <;> exact ⟨_, rfl, (h r.frame).steps _ (congrArg (r.frame :: ·) hr)⟩

theorem step_closing {r : Reading} (hr : r.outer = frame :: outer) :
    ∃ s, r.step .closing = .ok s ∧ s.outer = outer ∧ s.frame.Counts :=
  ⟨_, wellFormed_eq_ok.mpr (leave_eq_some.mpr ⟨frame, outer, hr, rfl⟩), rfl, Frame.counts_push _ _⟩

theorem closing (h : Completes outer y) : Completes (frame :: outer) (')' :: y) :=
  of_next rfl rfl h.portable fun _ hr => by
    obtain ⟨s, hs, houter, -⟩ := step_closing hr
    exact ⟨s, hs, h.steps s houter⟩

/-- A parenthesis is closed, and what is in it gets a count. -/
theorem closing_counted (h : Completes outer y) {least : Nat} {most : Option Nat} (hfits : CountFits least most)
    (hnext : Lexeme.next t = some (.count least most .greedy, y)) : Completes (frame :: outer) (')' :: t) := by
  have hall := all_of_next hnext
  refine of_next rfl rfl (by rw [hall]; exact List.forall_mem_cons.mpr ⟨rfl, h.portable⟩) fun r hr => ?_
  obtain ⟨s, hs, houter, regex, others, hitems⟩ := step_closing hr
  obtain ⟨p, hp, hpouter⟩ : ∃ p, s.step (.count least most .greedy) = .ok p ∧ p.outer = outer :=
    ⟨_, count_eq_ok.mpr ⟨hfits, regex, others, hitems, rfl⟩, houter⟩
  obtain ⟨q, hq, hend⟩ := h.steps p hpouter
  exact ⟨s, hs, q, by rw [hall]; exact steps_cons.mpr ⟨p, hp, hq⟩, hend⟩

end Completes

/-! ### Expressions among others -/

namespace Reading

theorem steps_points (points : List Nat) (r : Reading) :
    ∃ q, r.steps (points.map .point) = .ok q ∧ q.outer = r.outer := by
  induction points generalizing r with
  | nil => exact ⟨r, rfl, rfl⟩
  | cons n points ih =>
    obtain ⟨q, hq, houter⟩ := ih (r.push (.oneOf ⟨[.range n n], false, r.frame.flags.anyCase⟩) .single)
    exact ⟨q, steps_cons.mpr ⟨_, rfl, hq⟩, houter⟩

/-- A text that was read in one state is read in another one that is over it, whatever follows. An escape at its end may
take some digits of what follows. -/
theorem Over.steps_append {base : List Frame} {r r' q : Reading} (h : Over base r r') {t y : Text} (hy : Follows y)
    (ht : ∀ l ∈ Lexeme.all t, l.isPortable = true) (hq : r.steps (Lexeme.all t) = .ok q) :
    ∃ digits rest lexemes q', (∀ c ∈ digits, c.isDigit = true) ∧ y = digits ++ rest ∧
      Lexeme.all (t ++ y) = lexemes ++ Lexeme.all rest ∧ (∀ l ∈ lexemes, l.isPortable = true) ∧
      r'.steps lexemes = .ok q' ∧ Over base q q' ∧ (digits ≠ [] → q'.frame.Counts) := by
  induction hn : t.length using Nat.strongRecOn generalizing t r r' with
  | _ n ih =>
    rcases (show Lexes t from not_broken_of_steps hq).cases with rfl | ⟨l, rest, hnext, -⟩
    · rw [all_nil, steps_nil, Except.ok.injEq] at hq
      exact ⟨[], y, [], r', List.forall_mem_nil _, rfl, rfl, List.forall_mem_nil _, rfl, hq ▸ h,
        fun hne => absurd rfl hne⟩
    · rw [all_of_next hnext, List.forall_mem_cons] at ht
      rw [all_of_next hnext, steps_cons] at hq
      obtain ⟨s, hs, hq⟩ := hq
      rcases next_append hy hnext with hfound | ⟨rfl, -, -, hmore, hescape⟩
      · obtain ⟨s', hs', hover⟩ := h.step ht.1 hs
        obtain ⟨digits, last, lexemes, q', hdigits, hsplit, hall, hl, hq', hend, hcounts⟩ :=
          ih rest.length (hn ▸ length_next hnext) hover ht.2 hq rfl
        refine ⟨digits, last, l :: lexemes, q', hdigits, hsplit, ?_, List.forall_mem_cons.mpr ⟨ht.1, hl⟩,
          steps_cons.mpr ⟨s', hs', hq'⟩, hend, hcounts⟩
        rw [all_of_next hfound, hall, List.cons_append]
      · rcases hescape with ⟨index, rfl⟩ | ⟨n, m, last, rfl, hfound⟩
        · cases ht.1
        · obtain ⟨-, digits, hdigits, hsplit⟩ := hmore _ _ hfound
          rw [all_nil, steps_nil, Except.ok.injEq] at hq
          subst hq
          rw [← Except.ok.inj hs]
          exact ⟨digits, last, [.point m], _, hdigits, hsplit, all_of_next hfound, List.forall_mem_singleton.mpr rfl,
            rfl, h.push _ _ _, fun _ => Frame.counts_push _ _⟩

end Reading

/-- An expression that can be read anywhere, before a text that completes it. -/
theorem Completes.capture {outer : List Frame} {t y : Text} (h : Completes outer y) (ht : IsPortable t)
    (hy : Follows y) : Completes outer (t ++ y) := by
  obtain ⟨e, he⟩ := ht.valid
  obtain ⟨q, hq, hclosed, -⟩ := read_eq_ok.mp he
  have hread : ∀ r : Reading, r.outer = outer → ∃ digits rest lexemes q', (∀ c ∈ digits, c.isDigit = true) ∧
      y = digits ++ rest ∧ Lexeme.all (t ++ y) = lexemes ++ Lexeme.all rest ∧ (∀ l ∈ lexemes, l.isPortable = true) ∧
      r.steps lexemes = .ok q' ∧ q'.outer = outer ∧ (digits ≠ [] → q'.frame.Counts) := by
    intro r hr
    obtain ⟨digits, rest, lexemes, q', hdigits, hsplit, hall, hl, hq', hover, hcounts⟩ :=
      (Reading.over_start r).steps_append hy ht.portable hq
    exact ⟨digits, rest, lexemes, q', hdigits, hsplit, hall, hl, hq', hr ▸ hover.outer_eq hclosed, hcounts⟩
  have hrest : ∀ {digits rest : Text}, (∀ c ∈ digits, c.isDigit = true) → y = digits ++ rest →
      ∀ l ∈ Lexeme.all rest, l.isPortable = true := by
    rintro digits rest hdigits rfl l hl
    refine h.portable l ?_
    rw [all_digits hdigits]
    exact List.mem_append_right _ hl
  refine ⟨?_, fun r hr => ?_⟩
  · obtain ⟨digits, rest, lexemes, -, hdigits, hsplit, hall, hl, -⟩ := hread { Reading.start with outer } rfl
    rw [hall, List.forall_mem_append]
    exact ⟨hl, hrest hdigits hsplit⟩
  · obtain ⟨digits, rest, lexemes, q', hdigits, hsplit, hall, -, hq', houter, hcounts⟩ := hread r hr
    obtain ⟨s, hs, hend⟩ := h.steps q' houter
    have hsteps : ∃ s, q'.steps (Lexeme.all rest) = .ok s ∧ s.outer = [] := by
      cases digits with
      | nil => exact ⟨s, by rw [← hs, hsplit, List.nil_append], hend⟩
      | cons c digits =>
        -- the digits are part of the escape, which may be counted as well as they may
        obtain ⟨p, hp, hpouter⟩ := Reading.steps_points ((c :: digits).map Char.toNat) q'
        rw [hsplit, all_digits hdigits, Reading.steps_append, ← Function.comp_def, ← List.map_map, hp] at hs
        have hover : Reading.Over [] p q' :=
          ⟨fun _ => hcounts (List.cons_ne_nil _ _), q'.outer, by rw [hpouter], (List.append_nil _).symm⟩
        obtain ⟨s', hs', hover'⟩ := hover.steps (hrest hdigits hsplit) hs
        exact ⟨s', hs', hover'.outer_eq hend⟩
    obtain ⟨s, hs, hend⟩ := hsteps
    refine ⟨s, ?_, hend⟩
    rw [hall, Reading.steps_append, hq']
    exact hs

end Routing.Regex
