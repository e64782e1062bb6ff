import Routing.Proofs.Regex.Bare
import Routing.Proofs.Regex.Reading

/-!
# What lexemes build

An expression is put together lexeme by lexeme. So what all lexemes of a text keep holds of the expression that it
writes (`Builds.read`): lexemes that are no captures write an expression without captures, and lexemes of regular
operators a regular one (`isRegular_of_read`).
-/

namespace Routing.Regex

/-- Whether a lexeme neither opens a capture nor refers to one. -/
def Lexeme.isFree : Lexeme → Bool
  | .opening (.capturing _) | .backref _ | .namedRef _ => false
  | _ => true

/-- Whether a lexeme is free of captures and means the same inside of parentheses: it turns on no flags for the whole
expression. -/
def Lexeme.isBare : Lexeme → Bool
  | .opening (.capturing _) | .backref _ | .namedRef _ | .flags _ => false
  | _ => true

/-- What holds of parts in a row. -/
theorem seqAll_of {P : Regex → Prop} (hempty : P .empty)
    (hseq : ∀ {first second}, P first → P second → P (.seq first second)) {parts : List Regex}
    (hparts : ∀ r ∈ parts, P r) : P (seqAll parts) := by
  induction parts with
  | nil => exact hempty
  | cons r parts ih =>
    rw [List.forall_mem_cons] at hparts
    exact hseq hparts.1 (ih hparts.2)

/-- What holds of alternatives. -/
theorem altAll_of {P : Regex → Prop} (hempty : P .empty)
    (halt : ∀ {first second}, P first → P second → P (.alt first second)) {branches : List Regex}
    (hbranches : ∀ r ∈ branches, P r) : P (altAll branches) := by
  induction branches with
  | nil => exact hempty
  | cons r branches ih =>
    rw [List.forall_mem_cons] at hbranches
    cases branches with
    | nil => exact hbranches.1
    | cons s branches => exact halt hbranches.1 (ih hbranches.2)

/-- Whether some lexemes, none of them a capture, make expressions with a property of expressions with that property. -/
structure Builds (allowed : Lexeme → Bool) (P : Regex → Prop) : Prop where
  free : ∀ {l}, allowed l = true → l.isFree = true
  empty : P .empty
  oneOf : ∀ set, P (.oneOf set)
  seq : ∀ {first second}, P first → P second → P (.seq first second)
  alt : ∀ {first second}, P first → P second → P (.alt first second)
  anchor : ∀ {l} place, allowed l = true → l ∈ [.caret, .dollar, .anchor place] → P (.anchor place)
  atomic : ∀ {body}, allowed (.opening .atomic) = true → P body → P (.atomic body)
  look : ∀ {wanted body}, allowed (.opening (.look wanted)) = true → P body → P (.look wanted body)
  counted : ∀ {body least most manner}, allowed (.count least most manner) = true → P body →
    P (counted body least most manner)

/-- Whether what is in a frame has a property. -/
structure Frame.Holds (P : Regex → Prop) (f : Frame) : Prop where
  branches : ∀ r ∈ f.branches, P r
  items : ∀ item ∈ f.items, P item.regex

/-- Whether a parenthesis makes expressions with a property of what is in it. -/
def Closing.Makes (P : Regex → Prop) (closing : Closing) : Prop :=
  ∀ f : Frame, f.closing = closing → P f.body → P f.close

/-- Whether what is in all frames has a property, and so has what all of them become but the outermost one, which ends
in a given way. -/
structure Reading.Holds (P : Regex → Prop) (outermost : Closing) (r : Reading) : Prop where
  frames : ∀ f ∈ r.frame :: r.outer, f.Holds P
  closings : ∃ inner, (r.frame :: r.outer).map Frame.closing = inner ++ [outermost] ∧ ∀ closing ∈ inner, closing.Makes P

section Builds

variable {allowed : Lexeme → Bool} {P : Regex → Prop}

namespace Frame.Holds

variable {f : Frame}

theorem branch (h : Builds allowed P) (hf : f.Holds P) : P f.branch := by
  apply seqAll_of h.empty h.seq
  simpa using hf.items

theorem body (h : Builds allowed P) (hf : f.Holds P) : P f.body := by
  refine altAll_of h.empty h.alt ?_
  simp only [List.forall_mem_append, List.mem_reverse, List.forall_mem_singleton]
  exact ⟨hf.branches, hf.branch h⟩

theorem push (hf : f.Holds P) {r : Regex} (hr : P r) (weight : Weight) : (f.push r weight).Holds P :=
  ⟨hf.branches, List.forall_mem_cons.mpr ⟨hr, hf.items⟩⟩

end Frame.Holds

namespace Reading

variable {r q : Reading} {outermost : Closing}

/-- A change inside of the innermost frame. -/
theorem Holds.mapFrame (hr : r.Holds P outermost) {f : Frame} (hf : f.Holds P)
    (hclosing : f.closing = r.frame.closing) :
    ({ r with frame := f } : Reading).Holds P outermost := by
  refine ⟨List.forall_mem_cons.mpr ⟨hf, (List.forall_mem_cons.mp hr.frames).2⟩, ?_⟩
  have hclosings := hr.closings
  rwa [List.map_cons, ← hclosing] at hclosings

theorem Holds.enter (hr : r.Holds P outermost) {closing : Closing} (flags : Flags) (hclosing : closing.Makes P) :
    (r.enter closing flags).Holds P outermost := by
  obtain ⟨inner, hinner, hmakes⟩ := hr.closings
  refine ⟨List.forall_mem_cons.mpr ⟨⟨nofun, nofun⟩, hr.frames⟩, closing :: inner, ?_,
    List.forall_mem_cons.mpr ⟨hclosing, hmakes⟩⟩
  rw [List.cons_append, ← hinner]
  rfl

theorem Holds.leave (h : Builds allowed P) (hr : r.Holds P outermost) (hq : r.leave = some q) :
    q.Holds P outermost := by
  obtain ⟨up, others, hup, rfl⟩ := leave_eq_some.mp hq
  obtain ⟨hframes, inner, hinner, hmakes⟩ := hr
  rw [hup, List.forall_mem_cons, List.forall_mem_cons] at hframes
  rw [hup, List.map_cons, List.map_cons] at hinner
  cases inner with
  | nil => cases hinner
  | cons closing inner =>
    rw [List.cons_append, List.cons.injEq] at hinner
    rw [List.forall_mem_cons] at hmakes
    have hclosed : P r.frame.close := hmakes.1 r.frame hinner.1 (hframes.1.body h)
    exact ⟨List.forall_mem_cons.mpr ⟨hframes.2.1.push hclosed _, hframes.2.2⟩, inner, hinner.2, hmakes.2⟩

/-- A lexeme keeps the property. -/
theorem Holds.step (h : Builds allowed P) {l : Lexeme} (hr : r.Holds P outermost) (hl : allowed l = true)
    (hq : r.step l = .ok q) : q.Holds P outermost := by
  have hframe := (List.forall_mem_cons.mp hr.frames).1
  have hfree := h.free hl
  cases l with
  | point | set | dot =>
    rw [← Except.ok.inj hq]
    exact hr.mapFrame (hframe.push (h.oneOf _) _) rfl
  | caret | dollar | anchor =>
    rw [← Except.ok.inj hq]
    exact hr.mapFrame (hframe.push (h.anchor _ hl (by simp)) _) rfl
  | backref | namedRef => cases hfree
  | opening kind =>
    cases kind with
    | plain | flagged =>
      rw [← Except.ok.inj hq]
      refine hr.enter _ fun g hg hbody => ?_
      rwa [Frame.close, hg]
    | atomic =>
      rw [← Except.ok.inj hq]
      refine hr.enter _ fun g hg hbody => ?_
      rw [Frame.close, hg]
      exact h.atomic hl hbody
    | look wanted =>
      rw [← Except.ok.inj hq]
      refine hr.enter _ fun g hg hbody => ?_
      rw [Frame.close, hg]
      exact h.look hl hbody
    | capturing => cases hfree
  | closing => exact hr.leave h (wellFormed_eq_ok.mp hq)
  | bar =>
    rw [← Except.ok.inj hq]
    exact hr.mapFrame ⟨List.forall_mem_cons.mpr ⟨hframe.branch h, hframe.branches⟩, List.forall_mem_nil _⟩ rfl
  | count least most manner =>
    obtain ⟨-, regex, others, hitems, rfl⟩ := count_eq_ok.mp hq
    have hall := hframe.items
    rw [hitems, List.forall_mem_cons] at hall
    exact hr.mapFrame ⟨hframe.branches, List.forall_mem_cons.mpr ⟨h.counted hl hall.1, hall.2⟩⟩ rfl
  | flags on =>
    obtain ⟨-, rfl⟩ := flags_eq_ok.mp hq
    exact hr.mapFrame ⟨hframe.branches, hframe.items⟩ rfl
  | comment =>
    rw [← Except.ok.inj hq]
    exact hr
  | broken => cases hq

/-- Lexemes that build expressions with a property keep it in all that is read. -/
theorem Holds.steps (h : Builds allowed P) {lexemes : List Lexeme} (hr : r.Holds P outermost)
    (hall : ∀ l ∈ lexemes, allowed l = true) (hq : r.steps lexemes = .ok q) : q.Holds P outermost := by
  induction lexemes generalizing r with
  | nil =>
    rw [steps_nil, Except.ok.injEq] at hq
    exact hq ▸ hr
  | cons l lexemes ih =>
    obtain ⟨hl, hlexemes⟩ := List.forall_mem_cons.mp hall
    obtain ⟨s, hs, hq⟩ := steps_cons.mp hq
    exact ih (hr.step h hl hs) hlexemes hq

/-- What is read where nothing else is open. -/
theorem holds_of_steps (h : Builds allowed P) {lexemes : List Lexeme} (hall : ∀ l ∈ lexemes, allowed l = true)
    (hr : r.outer = []) (hbranches : r.frame.branches = []) (hitems : r.frame.items = [])
    (hq : r.steps lexemes = .ok q) (houter : q.outer = []) : q.frame.closing = r.frame.closing ∧ P q.frame.body := by
  have hstart : r.Holds P r.frame.closing := by
    refine ⟨?_, [], by rw [hr]; rfl, nofun⟩
    rw [hr, List.forall_mem_singleton]
    exact ⟨hbranches ▸ nofun, hitems ▸ nofun⟩
  obtain ⟨hframes, inner, hinner, -⟩ := hstart.steps h hall hq
  rw [houter] at hframes hinner
  have hclosing : q.frame.closing = r.frame.closing := by
    cases inner with
    | nil => simpa using hinner
    | cons closing inner => simp at hinner
  exact ⟨hclosing, (List.forall_mem_singleton.mp hframes).body h⟩

end Reading

theorem Builds.read (h : Builds allowed P) {t : Text} {e : Regex} (he : Regex.read t = .ok e)
    (hall : ∀ l ∈ Lexeme.all t, allowed l = true) : P e := by
  obtain ⟨r, hr, houter, rfl⟩ := read_eq_ok.mp he
  obtain ⟨hclosing, hbody⟩ := Reading.holds_of_steps h hall rfl rfl rfl hr houter
  have hwhole : r.frame.closing = .whole := hclosing
  rwa [Frame.close, hwhole]

end Builds

/-! ### Bare expressions -/

theorem isBare_seqAll {parts : List Regex} (h : ∀ r ∈ parts, r.IsBare) : (seqAll parts).IsBare :=
  seqAll_of trivial (fun h₁ h₂ => ⟨h₁, h₂⟩) h

theorem mem_of_mem_commonStart {branch : List Regex} {others : List (List Regex)} {r : Regex}
    (h : r ∈ commonStart branch others) : r ∈ branch := by
  induction branch generalizing others with
  | nil => exact h
  | cons s branch ih =>
    rw [commonStart] at h
    split at h
    · rcases List.mem_cons.mp h with rfl | h
      · exact List.mem_cons_self
      · exact List.mem_cons_of_mem _ (ih h)
    · cases h

theorem isBare_joinBranches {branches : List (List Regex)} (h : ∀ branch ∈ branches, ∀ r ∈ branch, r.IsBare) :
    ∀ r ∈ joinBranches branches, r.IsBare := by
  have hchoose : ∀ branches : List (List Regex), (∀ branch ∈ branches, ∀ r ∈ branch, r.IsBare) →
      (choose branches).IsBare := by
    intro branches h
    rw [choose]
    split
    · trivial
    · apply altAll_of (P := IsBare) trivial fun h₁ h₂ => ⟨h₁, h₂⟩
      rw [List.forall_mem_map]
      exact fun branch hbranch => isBare_seqAll (h branch hbranch)
  intro r hr
  match branches with
  | [] => cases hr
  | [branch] => exact h branch (List.mem_singleton.mpr rfl) r hr
  | branch :: other :: others =>
    rw [joinBranches, List.mem_append, List.mem_singleton] at hr
    · rcases hr with hr | rfl
      · exact h branch List.mem_cons_self r (mem_of_mem_commonStart hr)
      · refine hchoose _ ?_
        rw [List.forall_mem_map]
        exact fun branch hbranch r hr => h branch hbranch r (List.mem_of_mem_drop hr)
    · nofun

theorem isBare_branches {r : Regex} (h : r.IsBare) : ∀ branch ∈ r.branches, ∀ part ∈ branch, part.IsBare := by
  induction r with
  | empty => simp [branches]
  | oneOf | anchor => simp [branches, IsBare]
  | seq first second ih₁ ih₂ =>
    rw [branches, List.forall_mem_singleton, List.forall_mem_append]
    exact ⟨isBare_joinBranches (ih₁ h.1), isBare_joinBranches (ih₂ h.2)⟩
  | alt first second ih₁ ih₂ =>
    rw [branches, List.forall_mem_cons]
    exact ⟨isBare_joinBranches (ih₁ h.1), ih₂ h.2⟩
  | capture | backref => exact h.elim
  | loop body least most reluctant ih | atomic body ih | look wanted body ih =>
    rw [branches, List.forall_mem_singleton, List.forall_mem_singleton]
    exact isBare_seqAll (isBare_joinBranches (ih h))
  | possessive =>
    rw [branches, List.forall_mem_singleton, List.forall_mem_singleton]
    exact h

/-- Factoring adds no captures. -/
theorem IsBare.factor {r : Regex} (h : r.IsBare) : r.factor.IsBare :=
  isBare_seqAll (isBare_joinBranches (isBare_branches h))

theorem builds_isBare : Builds Lexeme.isFree IsBare where
  free h := h
  empty := trivial
  oneOf _ := trivial
  seq h₁ h₂ := ⟨h₁, h₂⟩
  alt h₁ h₂ := ⟨h₁, h₂⟩
  anchor _ _ _ := trivial
  atomic _ h := h
  look _ h := h
  counted {body least most manner} _ hbody := by
    cases manner with
    | greedy | reluctant => exact hbody.nest
    | possessive => exact hbody.factor

/-! ### Regular expressions -/

/-- Whether a lexeme is one of a regular expression without captures. -/
def Lexeme.isPlain : Lexeme → Bool
  | .point _ | .set _ _ | .dot | .opening .plain | .closing | .bar | .comment => true
  | .count _ _ manner => manner != .possessive
  | _ => false

theorem Lexeme.isBare_of_isPlain {l : Lexeme} (h : l.isPlain = true) : l.isBare = true := by
  cases l with
  | opening kind => cases kind <;> first | rfl | cases h
  | backref | namedRef | flags => cases h
  | _ => rfl

theorem Lexeme.isFree_of_isBare {l : Lexeme} (h : l.isBare = true) : l.isFree = true := by
  cases l with
  | opening kind => cases kind <;> first | rfl | cases h
  | backref | namedRef | flags => cases h
  | _ => rfl

theorem builds_isRegular : Builds Lexeme.isPlain IsRegular where
  free h := Lexeme.isFree_of_isBare (Lexeme.isBare_of_isPlain h)
  empty := trivial
  oneOf _ := trivial
  seq h₁ h₂ := ⟨h₁, h₂⟩
  alt h₁ h₂ := ⟨h₁, h₂⟩
  anchor place hl hmem := by
    simp only [List.mem_cons, List.not_mem_nil, or_false] at hmem
    rcases hmem with rfl | rfl | rfl <;> cases hl
  atomic hl := by cases hl
  look hl := by cases hl
  counted {body least most manner} hl hbody := by
    cases manner with
    | greedy | reluctant =>
      show body.nest.IsRegular
      rwa [nest_of_isRegular hbody]
    | possessive => cases hl

/-- Plain lexemes write a regular expression. -/
theorem isRegular_of_read {t : Text} {e : Regex} (he : Regex.read t = .ok e)
    (hplain : ∀ l ∈ Lexeme.all t, l.isPlain = true) : e.IsRegular :=
  builds_isRegular.read he hplain

end Routing.Regex
