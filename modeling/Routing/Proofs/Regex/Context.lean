import Routing.Proofs.Regex.Building

/-!
# Reading an expression inside of another one

An expression that has no captures of its own is read inside of another one as it is read alone (`steps_onto`): what it
leaves at its outermost level is added to the parenthesis that is open there. A bar at its outermost level ends the
alternative that was begun before it, so with such a bar nothing may stand before it in the same parenthesis.
-/

namespace Routing.Regex

/-- The frame with the alternatives and the items of another one after its own. -/
def Frame.take (base f : Frame) : Frame :=
  { base with branches := f.branches ++ base.branches, items := f.items ++ base.items }

namespace Reading

/-- Whether `r'` has been read from `b` on as `r` has been read alone. -/
structure Onto (b r r' : Reading) : Prop where
  captures : r'.captures = b.captures
  names : r'.names = b.names
  stack : ∃ upper bottom, r.frame :: r.outer = upper ++ [bottom] ∧
    (bottom.closing = .whole ∧ bottom.flags = b.frame.flags) ∧
    r'.frame :: r'.outer = upper ++ b.frame.take bottom :: b.outer

section Onto

variable {b r r' : Reading}

theorem onto_start (hflags : b.frame.flags = {}) : Onto b start b :=
  ⟨rfl, rfl, [], start.frame, rfl, ⟨rfl, hflags.symm⟩, rfl⟩

/-- Either nothing but the outermost level is open, or what is open inside of it is the same. -/
theorem Onto.cases (h : Onto b r r') :
    (r.outer = [] ∧ (r.frame.closing = .whole ∧ r.frame.flags = b.frame.flags) ∧ r'.frame = b.frame.take r.frame ∧
        r'.outer = b.outer) ∨
      r'.frame = r.frame ∧ ∃ upper bottom, r.outer = upper ++ [bottom] ∧
        (bottom.closing = .whole ∧ bottom.flags = b.frame.flags) ∧
        r'.outer = upper ++ b.frame.take bottom :: b.outer := by
  obtain ⟨upper, bottom, hr, hflags, hr'⟩ := h.stack
  cases upper with
  | nil =>
    rw [List.nil_append, List.cons.injEq] at hr hr'
    exact Or.inl ⟨hr.2, hr.1 ▸ hflags, hr.1 ▸ hr'.1, hr'.2⟩
  | cons top upper =>
    rw [List.cons_append, List.cons.injEq] at hr hr'
    exact Or.inr ⟨hr'.1.trans hr.1.symm, upper, bottom, hr.2, hflags, hr'.2⟩

theorem Onto.flags (h : Onto b r r') : r'.frame.flags = r.frame.flags := by
  rcases h.cases with ⟨-, ⟨-, hflags⟩, hframe, -⟩ | ⟨hframe, -⟩
  · rw [hframe, hflags]
    rfl
  · rw [hframe]

theorem Onto.items (h : Onto b r r') : ∃ below, r'.frame.items = r.frame.items ++ below := by
  rcases h.cases with ⟨-, -, hframe, -⟩ | ⟨hframe, -⟩
  · exact ⟨b.frame.items, by rw [hframe]; rfl⟩
  · exact ⟨[], by rw [hframe, List.append_nil]⟩

/-- A change of the items of the innermost level that does not look below them. -/
theorem Onto.mapItems (h : Onto b r r') {items items' : List Item}
    (hitems : ∀ below, r'.frame.items = r.frame.items ++ below → items' = items ++ below) :
    Onto b { r with frame := { r.frame with items } } { r' with frame := { r'.frame with items := items' } } := by
  refine ⟨h.captures, h.names, ?_⟩
  rcases h.cases with ⟨houter, hbottom, hframe, houter'⟩ | ⟨hframe, upper, bottom, houter, hbottom, houter'⟩
  · refine ⟨[], { r.frame with items }, by rw [houter]; rfl, hbottom, ?_⟩
    rw [houter', hitems b.frame.items (by rw [hframe]; rfl), hframe]
    rfl
  · refine ⟨{ r.frame with items } :: upper, bottom, by rw [houter]; rfl, hbottom, ?_⟩
    rw [houter', hitems [] (by rw [hframe, List.append_nil]), hframe, List.append_nil]
    rfl

theorem Onto.push (h : Onto b r r') (regex : Regex) (weight : Weight) :
    Onto b (r.push regex weight) (r'.push regex weight) :=
  h.mapItems fun below hbelow => by rw [hbelow]; rfl

theorem Onto.enter (h : Onto b r r') (closing : Closing) {flags flags' : Flags} (hflags : flags' = flags) :
    Onto b (r.enter closing flags) (r'.enter closing flags') := by
  obtain ⟨upper, bottom, hr, hbottom, hr'⟩ := h.stack
  refine ⟨h.captures, h.names, { closing, flags } :: upper, bottom, ?_, hbottom, ?_⟩
  · rw [List.cons_append, ← hr]
    rfl
  · rw [List.cons_append, ← hr', hflags]
    rfl

theorem Onto.leave (h : Onto b r r') {q : Reading} (hq : r.leave = some q) :
    ∃ q', r'.leave = some q' ∧ Onto b q q' := by
  obtain ⟨up, others, hup, rfl⟩ := leave_eq_some.mp hq
  rcases h.cases with ⟨houter, -⟩ | ⟨hframe, upper, bottom, houter, hbottom, houter'⟩
  · rw [houter] at hup
    cases hup
  · rw [houter] at hup
    cases upper with
    | nil =>
      obtain ⟨rfl, rfl⟩ := List.cons.inj hup
      refine ⟨_, leave_eq_some.mpr ⟨_, _, houter', rfl⟩, h.captures, h.names, [], bottom.push r.frame.close .single,
        rfl, hbottom, ?_⟩
      rw [hframe]
      rfl
    | cons top upper =>
      obtain ⟨rfl, rfl⟩ := List.cons.inj hup
      refine ⟨_, leave_eq_some.mpr ⟨_, _, houter', rfl⟩, h.captures, h.names, top.push r.frame.close .single :: upper,
        bottom, rfl, hbottom, ?_⟩
      rw [hframe]
      rfl

theorem Onto.bar (h : Onto b r r') (hbar : r.outer = [] → b.frame.items = []) :
    Onto b { r with frame := { r.frame with branches := r.frame.branch :: r.frame.branches, items := [] } }
      { r' with frame := { r'.frame with branches := r'.frame.branch :: r'.frame.branches, items := [] } } := by
  refine ⟨h.captures, h.names, ?_⟩
  rcases h.cases with ⟨houter, hbottom, hframe, houter'⟩ | ⟨hframe, upper, bottom, houter, hbottom, houter'⟩
  · refine ⟨[], { r.frame with branches := r.frame.branch :: r.frame.branches, items := [] }, by rw [houter]; rfl,
      hbottom, ?_⟩
    have hbranch : (b.frame.take r.frame).branch = r.frame.branch := by
      rw [Frame.branch, Frame.branch, Frame.take, hbar houter, List.append_nil]
    rw [houter', hframe, hbranch, Frame.take, Frame.take, hbar houter]
    rfl
  · refine ⟨{ r.frame with branches := r.frame.branch :: r.frame.branches, items := [] } :: upper, bottom,
      by rw [houter]; rfl, hbottom, ?_⟩
    rw [houter', hframe]
    rfl

theorem Onto.count (h : Onto b r r') {q : Reading} {least : Nat} {most : Option Nat} {manner : Manner}
    (hq : r.count least most manner = .ok q) : ∃ q', r'.count least most manner = .ok q' ∧ Onto b q q' := by
  obtain ⟨hfits, regex, others, hitems, rfl⟩ := count_eq_ok.mp hq
  obtain ⟨below, hbelow⟩ := h.items
  rw [hitems, List.cons_append] at hbelow
  refine ⟨_, count_eq_ok.mpr ⟨hfits, _, _, hbelow, rfl⟩, h.mapItems fun below' hbelow' => ?_⟩
  rw [hitems, hbelow, List.cons_append, List.cons.injEq] at hbelow'
  rw [hbelow'.2, List.cons_append]

/-- One lexeme. -/
theorem Onto.step (h : Onto b r r') {l : Lexeme} (hl : l.isBare = true) {q : Reading} (hq : r.step l = .ok q)
    (hbar : l = .bar → r.outer = [] → b.frame.items = []) : ∃ q', r'.step l = .ok q' ∧ Onto b q q' := by
  cases l with
  | point | set | dot | caret | dollar =>
    refine ⟨_, rfl, ?_⟩
    rw [← Except.ok.inj hq, h.flags]
    exact h.push _ _
  | anchor =>
    refine ⟨_, rfl, ?_⟩
    rw [← Except.ok.inj hq]
    exact h.push _ _
  | backref | namedRef | flags => cases hl
  | opening kind =>
    cases kind with
    | plain | atomic | look | flagged =>
      refine ⟨_, rfl, ?_⟩
      rw [← Except.ok.inj hq]
      exact h.enter _ (by rw [h.flags])
    | capturing => cases hl
  | closing =>
    obtain ⟨q', hq', honto⟩ := h.leave (wellFormed_eq_ok.mp hq)
    exact ⟨q', wellFormed_eq_ok.mpr hq', honto⟩
  | bar =>
    refine ⟨_, rfl, ?_⟩
    rw [← Except.ok.inj hq]
    exact h.bar (hbar rfl)
  | count least most manner => exact h.count hq
  | comment =>
    refine ⟨_, rfl, ?_⟩
    rw [← Except.ok.inj hq]
    exact h
  | broken => cases hq

theorem depthAfter_of_step {r q : Reading} {l : Lexeme} {lexemes : List Lexeme} {after : Nat} (h : r.step l = .ok q)
    (hd : depthAfter r.outer.length (brackets (l :: lexemes)) = some after) :
    depthAfter q.outer.length (brackets lexemes) = some after := by
  rw [brackets_cons, depthAfter_append] at hd
  obtain ⟨between, hbetween, hafter⟩ := Option.bind_eq_some_iff.mp hd
  have hdepth := depthAfter_add hbetween 1
  rw [depth_of_step h, Option.some.injEq, Nat.add_right_cancel_iff] at hdepth
  rwa [hdepth]

/-- A run of lexemes, with nothing before it in its parenthesis or without a bar at its outermost level. -/
theorem steps_onto (h : Onto b r r') {lexemes : List Lexeme} (hbare : ∀ l ∈ lexemes, l.isBare = true) {q : Reading}
    (hq : r.steps lexemes = .ok q)
    (hbar : b.frame.items = [] ∨ ∃ after, depthAfter r.outer.length (brackets lexemes) = some after) :
    ∃ q', r'.steps lexemes = .ok q' ∧ Onto b q q' := by
  induction lexemes generalizing r r' with
  | nil =>
    rw [steps_nil, Except.ok.injEq] at hq
    exact ⟨r', rfl, hq ▸ h⟩
  | cons l lexemes ih =>
    obtain ⟨hl, hlexemes⟩ := List.forall_mem_cons.mp hbare
    obtain ⟨s, hs, hq⟩ := steps_cons.mp hq
    have hfirst : l = .bar → r.outer = [] → b.frame.items = [] := by
      rintro rfl houter
      refine hbar.resolve_right ?_
      rintro ⟨after, hafter⟩
      rw [houter] at hafter
      cases hafter
    obtain ⟨s', hs', honto⟩ := h.step hl hs hfirst
    have hrest : b.frame.items = [] ∨ ∃ after, depthAfter s.outer.length (brackets lexemes) = some after :=
      hbar.imp_right fun ⟨after, hafter⟩ => ⟨after, depthAfter_of_step hs hafter⟩
    obtain ⟨q', hq', hend⟩ := ih honto hlexemes hq hrest
    exact ⟨q', steps_cons.mpr ⟨s', hs', hq'⟩, hend⟩

end Onto

/-- What an expression without captures of its own leaves where it is read inside of another one. -/
theorem steps_of_read {t : Text} {e : Regex} (he : Regex.read t = .ok e)
    (hbare : ∀ l ∈ Lexeme.all t, l.isBare = true) :
    ∃ f : Frame, e = f.body ∧ (depthAfter 0 (brackets (Lexeme.all t)) = some 0 → f.branches = []) ∧
      ∀ b : Reading, b.frame.flags = {} →
        b.frame.items = [] ∨ depthAfter 0 (brackets (Lexeme.all t)) = some 0 →
        b.steps (Lexeme.all t) = .ok { b with frame := b.frame.take f } := by
  obtain ⟨r, hr, houter, rfl⟩ := read_eq_ok.mp he
  have honto : ∀ b : Reading, b.frame.flags = {} →
      b.frame.items = [] ∨ depthAfter 0 (brackets (Lexeme.all t)) = some 0 →
      r.frame.closing = .whole ∧ b.steps (Lexeme.all t) = .ok { b with frame := b.frame.take r.frame } := by
    intro b hflags hbar
    obtain ⟨q, hq, honto⟩ := steps_onto (onto_start hflags) hbare hr (hbar.imp_right fun h => ⟨0, h⟩)
    rcases honto.cases with ⟨-, ⟨hclosing, -⟩, hframe, houter'⟩ | ⟨-, upper, bottom, hne, -⟩
    · exact ⟨hclosing, by rw [hq, ← hframe, ← houter', ← honto.captures, ← honto.names]⟩
    · rw [houter] at hne
      exact absurd hne.symm (List.append_ne_nil_of_right_ne_nil _ (List.cons_ne_nil _ _))
  refine ⟨r.frame, by rw [Frame.close, (honto start rfl (Or.inl rfl)).1], fun hd => ?_, fun b hflags hbar =>
    (honto b hflags hbar).2⟩
  have hkeeps : Keeps 0 .whole [] [] [] r :=
    steps_keeps hd hr ⟨[], start.frame, [], rfl, rfl, rfl, rfl, rfl, Or.inl rfl⟩
  exact hkeeps.bottom.2

end Reading

end Routing.Regex
