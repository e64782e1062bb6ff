import Routing.Proofs.Regex.Capture
import Routing.Proofs.Regex.Lexing

/-!
# Reading in a context

The reader keeps a stack of open parentheses, and a lexeme changes the top of it (`step_frames`). So lexemes that
close nothing they did not open, and have no bar outside of parentheses, leave everything below alone: they only add
items (`steps_keeps`). From this follow the two facts about texts that are put together:

* `whole_eq` — the expression of `(?:t)/?` is that of `t` and a slash that may be absent;
* `seqAll_of_read_append` — the expression of `a/b` starts with the parts of that of `a`.
-/

namespace Routing.Regex

/-! ### Depth -/

/-- The number of open parentheses after some brackets. There is none where a parenthesis closes that was not opened,
or a bar stands outside of all of them. -/
def depthAfter : Nat → List Bracket → Option Nat
  | depth, [] => some depth
  | depth, .opening :: rest => depthAfter (depth + 1) rest
  | 0, .closing :: _ => none
  | depth + 1, .closing :: rest => depthAfter depth rest
  | 0, .bar :: _ => none
  | depth + 1, .bar :: rest => depthAfter (depth + 1) rest

theorem depthAfter_append (depth : Nat) (a b : List Bracket) :
    depthAfter depth (a ++ b) = (depthAfter depth a).bind fun d => depthAfter d b := by
  induction a generalizing depth with
  | nil => rfl
  | cons bracket a ih =>
    cases bracket <;> cases depth <;> simp [depthAfter, ih]

/-- More parentheses around some brackets make no difference. -/
theorem depthAfter_add {depth after : Nat} {brackets : List Bracket} (h : depthAfter depth brackets = some after)
    (more : Nat) : depthAfter (depth + more) brackets = some (after + more) := by
  induction brackets generalizing depth with
  | nil => simpa [depthAfter] using h
  | cons bracket brackets ih =>
    cases bracket with
    | opening =>
      rw [depthAfter] at h ⊢
      rw [← ih h]
      congr 1
      omega
    | closing =>
      cases depth with
      | zero => simp [depthAfter] at h
      | succ depth =>
        rw [depthAfter] at h
        rw [Nat.succ_add, depthAfter]
        exact ih h
    | bar =>
      cases depth with
      | zero => simp [depthAfter] at h
      | succ depth =>
        rw [depthAfter] at h
        have := ih h
        rw [Nat.succ_add] at this ⊢
        rwa [depthAfter]

/-! ### What one lexeme does -/

/-- The items of an alternative after one more lexeme: the same, one more, or the last one changed. -/
inductive Grows : List Item → List Item → Prop
  | same {items} : Grows items items
  | more {items} (item : Item) : Grows items (item :: items)
  | changed {items} (before after : Item) : Grows (before :: items) (after :: items)

/-- What a lexeme does to the stack of frames, by the bracket that it is. -/
def StepFrames (r r' : Reading) : Option Bracket → Prop
  | none => r'.outer = r.outer ∧ r'.frame.closing = r.frame.closing ∧ r'.frame.branches = r.frame.branches ∧
      Grows r.frame.items r'.frame.items
  | some .opening => r'.outer = r.frame :: r.outer
  | some .closing => ∃ up, r.outer = up :: r'.outer ∧ r'.frame = up.push r.frame.close .single
  | some .bar => r'.outer = r.outer

namespace Reading

theorem stepFrames_push (r : Reading) (regex : Regex) (weight : Weight) : StepFrames r (r.push regex weight) none :=
  ⟨rfl, rfl, rfl, .more _⟩

theorem wellFormed_eq_ok {found : Option Reading} {r : Reading} : wellFormed found = .ok r ↔ found = some r := by
  cases found <;> simp [wellFormed]

/-- A parenthesis is left for one that is around it. -/
theorem leave_eq_some {r q : Reading} : r.leave = some q ↔
    ∃ up others, r.outer = up :: others ∧ q = { r with frame := up.push r.frame.close .single, outer := others } := by
  rw [leave]
  cases r.outer with
  | nil => simp
  | cons up others => simp [eq_comm]

/-- Whether the numbers of a count are small enough and in order. -/
def CountFits (least : Nat) (most : Option Nat) : Prop :=
  ¬(countLimit ≤ least ∨ most.any (countLimit ≤ ·)) ∧ ¬most.any (· < least)

/-- A count is put on an item that has none. -/
theorem count_eq_ok {r q : Reading} {least : Nat} {most : Option Nat} {manner : Manner} :
    r.count least most manner = .ok q ↔ CountFits least most ∧ ∃ regex others,
      r.frame.items = ⟨regex, .single⟩ :: others ∧
      q = { r with frame := { r.frame with items := ⟨counted regex least most manner, .counted⟩ :: others } } := by
  rw [count, CountFits]
  split
  · next hlimit => simp [hlimit]
  · next hlimit =>
    split
    · next horder => simp [horder]
    · next horder =>
      rw [and_iff_right ⟨hlimit, horder⟩]
      split
      · next regex others hitems => simp [hitems, eq_comm]
      · next hitems =>
        simp only [reduceCtorEq, false_iff, not_exists, not_and]
        exact fun regex others h => absurd h (hitems regex others)

/-- Flags for the whole expression come first. -/
theorem flags_eq_ok {r q : Reading} {on : Flags} : r.step (.flags on) = .ok q ↔
    (r.outer = [] ∧ r.frame.branches = [] ∧ r.frame.items = []) ∧
      q = { r with frame := { r.frame with flags := r.frame.flags.change on {} } } := by
  rw [step]
  split
  · next hfirst =>
    simp only [Bool.and_eq_true, List.isEmpty_iff, and_assoc] at hfirst
    simp [hfirst, eq_comm]
  · next hfirst =>
    simp only [Bool.and_eq_true, List.isEmpty_iff, and_assoc] at hfirst
    simp [hfirst]

theorem stepFrames_of_refer {r r' : Reading} {index : Nat} (h : r.refer index = some r') : StepFrames r r' none := by
  unfold refer at h
  split at h
  · rw [← Option.some.inj h]
    exact stepFrames_push _ _ _
  · simp at h

theorem step_frames {r r' : Reading} {l : Lexeme} (h : r.step l = .ok r') : StepFrames r r' l.bracket? := by
  cases l with
  | point | set | dot | caret | dollar | anchor =>
    rw [← Except.ok.inj h]
    exact stepFrames_push _ _ _
  | backref index => exact stepFrames_of_refer (wellFormed_eq_ok.mp h)
  | namedRef name =>
    obtain ⟨index, -, hrefer⟩ := Option.bind_eq_some_iff.mp (wellFormed_eq_ok.mp h)
    exact stepFrames_of_refer hrefer
  | opening kind =>
    cases kind with
    | plain | atomic | look | flagged =>
      rw [← Except.ok.inj h]
      rfl
    | capturing name =>
      have h' := wellFormed_eq_ok.mp h
      unfold enterCapture at h'
      cases name with
      | none =>
        rw [← Option.some.inj h']
        rfl
      | some name =>
        simp only at h'
        split at h'
        · simp at h'
        · rw [← Option.some.inj h']
          rfl
  | closing =>
    obtain ⟨up, others, houter, rfl⟩ := leave_eq_some.mp (wellFormed_eq_ok.mp h)
    exact ⟨up, houter, rfl⟩
  | bar =>
    rw [← Except.ok.inj h]
    rfl
  | count least most manner =>
    obtain ⟨-, regex, others, hitems, rfl⟩ := count_eq_ok.mp h
    refine ⟨rfl, rfl, rfl, ?_⟩
    rw [hitems]
    exact .changed _ _
  | flags on =>
    obtain ⟨-, rfl⟩ := flags_eq_ok.mp h
    exact ⟨rfl, rfl, rfl, .same⟩
  | comment =>
    rw [← Except.ok.inj h]
    exact ⟨rfl, rfl, rfl, .same⟩
  | broken => simp [step] at h

theorem steps_nil (r : Reading) : r.steps [] = .ok r := rfl

theorem steps_cons {r r' : Reading} {l : Lexeme} {lexemes : List Lexeme} :
    r.steps (l :: lexemes) = .ok r' ↔ ∃ q, r.step l = .ok q ∧ q.steps lexemes = .ok r' := by
  simp only [steps, List.foldlM_cons]
  cases hq : r.step l with
  | error e => simp [bind, Except.bind]
  | ok q => simp [bind, Except.bind]

theorem steps_append_ok {r r' : Reading} {a b : List Lexeme} :
    r.steps (a ++ b) = .ok r' ↔ ∃ q, r.steps a = .ok q ∧ q.steps b = .ok r' := by
  rw [steps_append]
  cases hq : r.steps a with
  | error e => simp [Except.bind]
  | ok q => simp [Except.bind]

theorem not_broken_of_steps {r r' : Reading} {lexemes : List Lexeme} (h : r.steps lexemes = .ok r') :
    .broken ∉ lexemes := by
  induction lexemes generalizing r with
  | nil => exact List.not_mem_nil
  | cons l lexemes ih =>
    obtain ⟨q, hq, hr⟩ := steps_cons.mp h
    refine List.not_mem_cons_of_ne_of_not_mem ?_ (ih hr)
    rintro rfl
    simp [step] at hq

/-- The number of open frames follows the bracket that a lexeme is. -/
theorem depth_of_step {r r' : Reading} {l : Lexeme} (h : r.step l = .ok r') :
    depthAfter (r.outer.length + 1) l.bracket?.toList = some (r'.outer.length + 1) := by
  have hframes := step_frames h
  cases hl : l.bracket? with
  | none =>
    rw [hl] at hframes
    rw [hframes.1]
    rfl
  | some bracket =>
    rw [hl] at hframes
    cases bracket with
    | opening =>
      have houter : r'.outer = r.frame :: r.outer := hframes
      rw [houter]
      rfl
    | closing =>
      obtain ⟨up, houter, -⟩ := hframes
      rw [houter]
      rfl
    | bar =>
      have houter : r'.outer = r.outer := hframes
      rw [houter]
      rfl

theorem depthAfter_of_steps {r r' : Reading} {lexemes : List Lexeme} (h : r.steps lexemes = .ok r') :
    depthAfter (r.outer.length + 1) (brackets lexemes) = some (r'.outer.length + 1) := by
  induction lexemes generalizing r with
  | nil =>
    rw [steps_nil, Except.ok.injEq] at h
    rw [h]
    rfl
  | cons l lexemes ih =>
    obtain ⟨q, hq, hr⟩ := steps_cons.mp h
    rw [brackets_cons, depthAfter_append, depth_of_step hq]
    exact ih hr

/-! ### What is below stays -/

/-- Whether the frame that is `depth` frames below the top has a given closing and given alternatives, and the items
`old` below others, at least one if there is one in `old`. -/
def Keeps (depth : Nat) (closing : Closing) (branches : List Regex) (old : List Item) (below : List Frame)
    (r : Reading) : Prop :=
  ∃ upper base new, r.frame :: r.outer = upper ++ base :: below ∧ upper.length = depth ∧ base.closing = closing ∧
    base.branches = branches ∧ base.items = new ++ old ∧ (old = [] ∨ new ≠ [])

section Keeps

variable {depth : Nat} {closing : Closing} {branches : List Regex} {old : List Item} {below : List Frame}

/-- At depth 0 it is the top that is kept. -/
theorem Keeps.bottom {r : Reading} (h : Keeps 0 closing branches old below r) :
    r.frame.closing = closing ∧ r.frame.branches = branches := by
  obtain ⟨upper, base, new, hstack, hlength, hclosing, hbranches, -⟩ := h
  rw [List.length_eq_zero_iff.mp hlength, List.nil_append, List.cons.injEq] at hstack
  rw [hstack.1]
  exact ⟨hclosing, hbranches⟩

theorem Keeps.items {r : Reading} (h : Keeps 0 closing branches old below r) : ∃ new, r.frame.items = new ++ old := by
  obtain ⟨upper, base, new, hstack, hlength, -, -, hitems, -⟩ := h
  rw [List.length_eq_zero_iff.mp hlength, List.nil_append, List.cons.injEq] at hstack
  rw [hstack.1]
  exact ⟨new, hitems⟩

theorem grows_keeps {items before : List Item} (h : Grows (before ++ old) items) (hold : old = [] ∨ before ≠ []) :
    ∃ after, items = after ++ old ∧ (old = [] ∨ after ≠ []) := by
  generalize hitems : before ++ old = start at h
  cases h with
  | same => exact ⟨before, hitems.symm, hold⟩
  | more item => exact ⟨item :: before, by rw [← hitems]; rfl, Or.inr (List.cons_ne_nil _ _)⟩
  | changed first last =>
    cases before with
    | nil =>
      rcases hold with rfl | hne
      · exact ⟨_, (List.append_nil _).symm, Or.inl rfl⟩
      · exact absurd rfl hne
    | cons item before =>
      rw [List.cons_append, List.cons.injEq] at hitems
      exact ⟨last :: before, by rw [← hitems.2]; rfl, Or.inr (List.cons_ne_nil _ _)⟩

theorem step_keeps {r r' : Reading} {l : Lexeme} {after : Nat}
    (hd : depthAfter depth l.bracket?.toList = some after) (h : r.step l = .ok r')
    (hk : Keeps depth closing branches old below r) : Keeps after closing branches old below r' := by
  obtain ⟨upper, base, new, hstack, hlength, hclosing, hbranches, hitems, hold⟩ := hk
  have hframes := step_frames h
  cases hl : l.bracket? with
  | none =>
    rw [hl] at hframes hd
    obtain ⟨houter, hc, hb, hgrows⟩ := hframes
    rw [Option.toList_none, depthAfter, Option.some.injEq] at hd
    cases upper with
    | nil =>
      -- the frame in question is on top, and only gets items
      rw [List.nil_append, List.cons.injEq] at hstack
      rw [hstack.1] at hc hb hgrows
      rw [hitems] at hgrows
      obtain ⟨more, hmore, hor⟩ := grows_keeps hgrows hold
      exact ⟨[], r'.frame, more, by rw [houter, hstack.2]; rfl, by simpa [hd] using hlength, hc.trans hclosing,
        hb.trans hbranches, hmore, hor⟩
    | cons top upper =>
      rw [List.cons_append, List.cons.injEq] at hstack
      exact ⟨r'.frame :: upper, base, new, by rw [houter, hstack.2]; rfl, by simpa [hd] using hlength, hclosing,
        hbranches, hitems, hold⟩
  | some bracket =>
    rw [hl] at hframes hd
    cases bracket with
    | opening =>
      have houter : r'.outer = r.frame :: r.outer := hframes
      rw [Option.toList_some, depthAfter, depthAfter, Option.some.injEq] at hd
      exact ⟨r'.frame :: upper, base, new, by rw [houter, hstack]; rfl, by simp [hlength, ← hd], hclosing, hbranches,
        hitems, hold⟩
    | closing =>
      obtain ⟨up, houter, hframe⟩ := hframes
      cases depth with
      | zero => simp [depthAfter] at hd
      | succ depth =>
        rw [Option.toList_some, depthAfter, depthAfter, Option.some.injEq] at hd
        obtain ⟨top, upper, rfl⟩ := List.exists_cons_of_length_eq_add_one hlength
        rw [List.cons_append, List.cons.injEq, houter] at hstack
        rw [List.length_cons, Nat.add_right_cancel_iff] at hlength
        cases upper with
        | nil =>
          -- the frame right above it is closed, which gives it an item
          rw [List.nil_append, List.cons.injEq] at hstack
          obtain ⟨-, rfl, hbelow⟩ := hstack
          refine ⟨[], r'.frame, ⟨r.frame.close, .single⟩ :: new, by rw [hbelow]; rfl, by rw [← hd, ← hlength], ?_, ?_, ?_,
            Or.inr (List.cons_ne_nil _ _)⟩
          · rw [hframe]
            exact hclosing
          · rw [hframe]
            exact hbranches
          · rw [hframe, List.cons_append, ← hitems]
            rfl
        | cons second upper =>
          rw [List.cons_append, List.cons.injEq] at hstack
          exact ⟨r'.frame :: upper, base, new, by rw [hstack.2.2]; rfl, by rw [← hd, ← hlength]; rfl, hclosing,
            hbranches, hitems, hold⟩
    | bar =>
      have houter : r'.outer = r.outer := hframes
      cases depth with
      | zero => simp [depthAfter] at hd
      | succ depth =>
        rw [Option.toList_some, depthAfter, depthAfter, Option.some.injEq] at hd
        obtain ⟨top, upper, rfl⟩ := List.exists_cons_of_length_eq_add_one hlength
        rw [List.cons_append, List.cons.injEq] at hstack
        exact ⟨r'.frame :: upper, base, new, by rw [houter, hstack.2]; rfl, by rw [← hd, ← hlength]; rfl, hclosing,
          hbranches, hitems, hold⟩

/-- Lexemes that stay at a depth or above it only add items there. -/
theorem steps_keeps {r r' : Reading} {lexemes : List Lexeme} {after : Nat}
    (hd : depthAfter depth (brackets lexemes) = some after) (h : r.steps lexemes = .ok r')
    (hk : Keeps depth closing branches old below r) : Keeps after closing branches old below r' := by
  induction lexemes generalizing r depth with
  | nil =>
    rw [steps_nil, Except.ok.injEq] at h
    rw [brackets, List.filterMap_nil, depthAfter, Option.some.injEq] at hd
    rw [← h, ← hd]
    exact hk
  | cons l lexemes ih =>
    obtain ⟨q, hq, hr⟩ := steps_cons.mp h
    rw [brackets_cons, depthAfter_append] at hd
    obtain ⟨between, hbetween, hafter⟩ := Option.bind_eq_some_iff.mp hd
    exact ih hafter hr (step_keeps hbetween hq hk)

end Keeps

/-! ### Inside of one more parenthesis -/

/-- The frame with its outermost parenthesis uncaptured. -/
def asPart (f : Frame) : Frame := { f with closing := if f.closing = .whole then .plain else f.closing }

/-- The same state inside of one more parenthesis that captures nothing. -/
def inside (r : Reading) : Reading :=
  { r with frame := asPart r.frame, outer := r.outer.map asPart ++ [start.frame] }

theorem close_asPart (f : Frame) : (asPart f).close = f.close := by
  unfold asPart Frame.close
  cases f.closing <;> rfl

theorem inside_push (r : Reading) (regex : Regex) (weight : Weight) :
    (r.push regex weight).inside = r.inside.push regex weight := rfl

theorem inside_enter {closing : Closing} (h : closing ≠ .whole) (r : Reading) (flags : Flags) :
    (r.enter closing flags).inside = r.inside.enter closing flags := by
  simp [inside, enter, asPart, h]

theorem isOpen_inside (r : Reading) (index : Nat) : r.inside.isOpen index = r.isOpen index := by
  have hclosing : ∀ f : Frame, ((asPart f).closing == .capture index) = (f.closing == .capture index) := by
    intro f
    unfold asPart
    cases f.closing <;> rfl
  have hstart : (start.frame.closing == .capture index) = false := rfl
  simp only [isOpen, inside, List.any_cons, List.any_append, List.any_map, List.any_nil, Function.comp_def, hclosing,
    hstart, Bool.or_false]

theorem refer_inside {r q : Reading} {index : Nat} (h : r.refer index = some q) :
    r.inside.refer index = some q.inside := by
  unfold refer at h ⊢
  rw [isOpen_inside]
  split at h
  · next hc =>
    rw [← Option.some.inj h, inside_push]
    exact if_pos hc
  · cases h

theorem step_inside {r q q' : Reading} {l : Lexeme} (h : r.step l = .ok q) (h' : r.inside.step l = .ok q') :
    q' = q.inside := by
  cases l with
  | point | set | dot | caret | dollar | anchor =>
    rw [← Except.ok.inj h, inside_push]
    exact (Except.ok.inj h').symm
  | backref index =>
    have := refer_inside (wellFormed_eq_ok.mp h)
    exact Option.some.inj ((wellFormed_eq_ok.mp h').symm.trans this)
  | namedRef name =>
    obtain ⟨index, hindex, hrefer⟩ := Option.bind_eq_some_iff.mp (wellFormed_eq_ok.mp h)
    obtain ⟨index', hindex', hrefer'⟩ := Option.bind_eq_some_iff.mp (wellFormed_eq_ok.mp h')
    rw [show r.inside.names = r.names from rfl, hindex, Option.some.injEq] at hindex'
    rw [← hindex', refer_inside hrefer] at hrefer'
    exact (Option.some.inj hrefer').symm
  | opening kind =>
    cases kind with
    | plain | atomic | look | flagged =>
      rw [← Except.ok.inj h, inside_enter (by simp)]
      exact (Except.ok.inj h').symm
    | capturing name =>
      have h := wellFormed_eq_ok.mp h
      have h' := wellFormed_eq_ok.mp h'
      unfold enterCapture at h h'
      cases name with
      | none =>
        rw [← Option.some.inj h, ← Option.some.inj h']
        simp [inside, enter, asPart]
      | some name =>
        simp only at h h'
        split at h
        · cases h
        · split at h'
          · cases h'
          · rw [← Option.some.inj h, ← Option.some.inj h']
            simp [inside, enter, asPart]
  | closing =>
    obtain ⟨up, others, houter, rfl⟩ := leave_eq_some.mp (wellFormed_eq_ok.mp h)
    obtain ⟨up', others', houter', rfl⟩ := leave_eq_some.mp (wellFormed_eq_ok.mp h')
    simp only [inside, houter, List.map_cons, List.cons_append, List.cons.injEq] at houter'
    obtain ⟨rfl, rfl⟩ := houter'
    simp only [inside, close_asPart]
    rfl
  | bar =>
    rw [← Except.ok.inj h, ← Except.ok.inj h']
    rfl
  | count least most manner =>
    obtain ⟨-, regex, others, hitems, rfl⟩ := count_eq_ok.mp h
    obtain ⟨-, regex', others', hitems', rfl⟩ := count_eq_ok.mp h'
    have hsame : (⟨regex, .single⟩ :: others : List Item) = ⟨regex', .single⟩ :: others' := hitems.symm.trans hitems'
    simp only [List.cons.injEq, Item.mk.injEq, and_true] at hsame
    obtain ⟨rfl, rfl⟩ := hsame
    rfl
  | flags on =>
    -- flags for the whole expression cannot come first here
    obtain ⟨⟨houter, -⟩, -⟩ := flags_eq_ok.mp h'
    simp [inside] at houter
  | comment =>
    rw [← Except.ok.inj h, ← Except.ok.inj h']
  | broken => cases h

theorem steps_inside {r q q' : Reading} {lexemes : List Lexeme} (h : r.steps lexemes = .ok q)
    (h' : r.inside.steps lexemes = .ok q') : q' = q.inside := by
  induction lexemes generalizing r with
  | nil =>
    rw [steps_nil, Except.ok.injEq] at h h'
    rw [← h, ← h']
  | cons l lexemes ih =>
    obtain ⟨s, hs, hq⟩ := steps_cons.mp h
    obtain ⟨s', hs', hq'⟩ := steps_cons.mp h'
    rw [step_inside hs hs'] at hq'
    exact ih hq hq'

end Reading

/-! ### Texts that are put together -/

theorem read_eq_ok {t : Text} {e : Regex} :
    Regex.read t = .ok e ↔ ∃ r, Reading.start.steps (Lexeme.all t) = .ok r ∧ r.outer = [] ∧ e = r.frame.close := by
  rw [Regex.read]
  cases Reading.start.steps (Lexeme.all t) with
  | error fault => simp [bind, Except.bind]
  | ok r =>
    simp only [bind, Except.bind, Reading.finish, Except.ok.injEq, exists_eq_left', List.isEmpty_iff]
    split
    · next h => simp [h, eq_comm]
    · next h => simp [h]

/-- A text that is an expression is lexemes all through, and its brackets match. -/
theorem brackets_of_read {t : Text} {e : Regex} (h : Regex.read t = .ok e) :
    Lexes t ∧ depthAfter 1 (brackets (Lexeme.all t)) = some 1 := by
  obtain ⟨r, hsteps, houter, -⟩ := read_eq_ok.mp h
  refine ⟨Reading.not_broken_of_steps hsteps, ?_⟩
  have := Reading.depthAfter_of_steps hsteps
  rwa [houter] at this

/-- A slash that may be absent. -/
def optionalSlash : Regex := .loop (.oneOf ⟨[.range 47 47], false, false⟩) 0 (some 1) false

/-- The expression of a text in parentheses and a slash that may be absent. -/
theorem whole_eq {t : Text} {e w : Regex} (he : Regex.read t = .ok e)
    (hw : Regex.read ('(' :: '?' :: ':' :: t ++ [')', '/', '?']) = .ok w) : w = seqAll [e, optionalSlash] := by
  obtain ⟨r, hr, houter, rfl⟩ := read_eq_ok.mp he
  obtain ⟨s, hs, -, rfl⟩ := read_eq_ok.mp hw
  have hopen : Lexeme.all ('(' :: '?' :: ':' :: t ++ [')', '/', '?']) =
      .opening .plain :: Lexeme.all (t ++ [')', '/', '?']) := all_of_next rfl
  have hclose : Lexeme.all [')', '/', '?'] = [.closing, .point 47, .count 0 (some 1) .greedy] := by
    rw [all_of_next (r := ['/', '?']) rfl, all_of_next (r := ['?']) rfl, all_of_next (r := []) rfl, all_nil]
    rfl
  rw [hopen, all_append (Reading.not_broken_of_steps hr) (separate_cons (by decide) (by decide) _), hclose] at hs
  obtain ⟨inner, hinner, hs⟩ := Reading.steps_cons.mp hs
  obtain ⟨q, hq, hs⟩ := Reading.steps_append_ok.mp hs
  have hstart : inner = Reading.start.inside := by
    rw [← Except.ok.inj hinner]
    rfl
  rw [hstart] at hq
  rw [Reading.steps_inside hr hq] at hs
  have hleave : r.inside.step .closing =
      .ok { r.inside with frame := Reading.start.frame.push r.frame.close .single, outer := [] } := by
    simp [Reading.step, Reading.leave, Reading.inside, houter, Reading.wellFormed, Reading.close_asPart]
  obtain ⟨q₁, h₁, hs⟩ := Reading.steps_cons.mp hs
  rw [hleave, Except.ok.injEq] at h₁
  obtain ⟨q₂, h₂, hs⟩ := Reading.steps_cons.mp hs
  obtain ⟨q₃, h₃, hs⟩ := Reading.steps_cons.mp hs
  rw [Reading.steps_nil, Except.ok.injEq] at hs
  rw [← h₁] at h₂
  rw [← Except.ok.inj h₂] at h₃
  rw [← hs, ← Except.ok.inj h₃]
  rfl

theorem Frame.close_of_whole {f : Frame} (hclosing : f.closing = .whole) (hbranches : f.branches = []) :
    f.close = seqAll (f.items.reverse.map Item.regex) := by
  simp [Frame.close, Frame.body, Frame.branch, hclosing, hbranches, altAll]

/-- The expression of `a/b`, where `a` and all of `a/b` leave no parenthesis open and have no bar outside of
parentheses, starts with the parts of that of `a`. -/
theorem seqAll_of_read_append {a b : Text} {e w : Regex} (he : Regex.read a = .ok e)
    (hw : Regex.read (a ++ '/' :: b) = .ok w) (ha : depthAfter 0 (brackets (Lexeme.all a)) = some 0)
    (hab : depthAfter 0 (brackets (Lexeme.all (a ++ '/' :: b))) = some 0) :
    ∃ parts more, e = seqAll parts ∧ w = seqAll (parts ++ more) := by
  obtain ⟨r, hr, houter, rfl⟩ := read_eq_ok.mp he
  obtain ⟨s, hs, houter', rfl⟩ := read_eq_ok.mp hw
  rw [all_append (Reading.not_broken_of_steps hr) (separate_cons (by decide) (by decide) _)] at hs hab
  have hslash : Lexeme.all ('/' :: b) = .point 47 :: Lexeme.all b := all_of_next rfl
  rw [hslash] at hs hab
  obtain ⟨r', hr', hs⟩ := Reading.steps_append_ok.mp hs
  rw [hr, Except.ok.injEq] at hr'
  obtain ⟨q, hq, hs⟩ := Reading.steps_cons.mp hs
  -- up to the slash the frame has only got items, and from then on again
  have hbefore : Reading.Keeps 0 .whole [] [] [] r :=
    Reading.steps_keeps ha hr ⟨[], Reading.start.frame, [], rfl, rfl, rfl, rfl, rfl, Or.inl rfl⟩
  have hrest : depthAfter 0 (brackets (Lexeme.all b)) = some 0 := by
    rw [brackets_append, depthAfter_append, ha] at hab
    exact hab
  obtain ⟨hclosing, hbranches⟩ := hbefore.bottom
  have hafter : Reading.Keeps 0 .whole [] r.frame.items [] s := by
    refine Reading.steps_keeps hrest hs ⟨[], q.frame,
      [⟨.oneOf ⟨[.range 47 47], false, r.frame.flags.anyCase⟩, .single⟩],
      ?_, rfl, ?_, ?_, ?_, Or.inr (List.cons_ne_nil _ _)⟩
    · rw [← Except.ok.inj hq, ← hr', List.nil_append]
      exact congrArg _ houter
    all_goals rw [← Except.ok.inj hq, ← hr']
    · exact hclosing
    · exact hbranches
    · rfl
  obtain ⟨new, hitems⟩ := hafter.items
  obtain ⟨hclosing', hbranches'⟩ := hafter.bottom
  refine ⟨r.frame.items.reverse.map Item.regex, new.reverse.map Item.regex, ?_, ?_⟩
  · rw [Frame.close_of_whole hclosing hbranches]
  · rw [Frame.close_of_whole hclosing' hbranches', hitems, List.reverse_append, List.map_append]

end Routing.Regex
