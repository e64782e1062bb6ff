import Routing.Regex.Possessive

/-!
# Matching

An expression takes a cursor to the cursors that it can reach, in order of preference: `Regex.ways` is that list. It
is what an expression means.

`Regex.attempt` searches the same list without building it: it hands each cursor to what has to follow and goes
back for the next one when that fails. `attempt_eq_findSome?` states that the two agree.

A loop goes round again only when the last round moved on; a round that matched the empty text ends it.
-/

namespace Routing.Regex

/-! ### The list of ways -/

/-- The ways through `step`, `n` times over. -/
def waysTimes (step : Cursor → List Cursor) : Nat → Cursor → List Cursor
  | 0, s => [s]
  | n + 1, s => (step s).flatMap (waysTimes step n)

/-- The ways through `step`, up to `n` times over; a round that does not move on is the last one. -/
def waysUpTo (step : Cursor → List Cursor) (reluctant : Bool) : Nat → Cursor → List Cursor
  | 0, s => [s]
  | n + 1, s =>
    let again := (step s).flatMap fun t =>
      if t.ahead.length < s.ahead.length then waysUpTo step reluctant n t else [t]
    if reluctant then s :: again else again ++ [s]

/-- The cursors that an expression can reach from a cursor, in order of preference. -/
def ways : Regex → Cursor → List Cursor
  | empty, s => [s]
  | oneOf set, s =>
    match s.advance with
    | some (c, p) => if set.holds c then [s.moveTo p] else []
    | none => []
  | seq first second, s => (first.ways s).flatMap second.ways
  | alt first second, s => first.ways s ++ second.ways s
  | capture index body, s =>
    (body.ways s).map fun t => t.enclose index s.toPlace t.toPlace
  | loop body least most reluctant, s =>
    (waysTimes body.ways least s).flatMap fun t => waysUpTo body.ways reluctant (rounds least most t.toPlace) t
  | possessive body least most nested, s => (hold body least most nested s).toList
  | atomic body, s => (body.ways s).take 1
  | look wanted body, s =>
    match (body.ways s).head? with
    | some t => if wanted then [{ s with captures := t.captures }] else []
    | none => if wanted then [] else [s]
  | backref index anyCase, s =>
    match s.captured index with
    | some t => if startsWith anyCase s.ahead t then [s.moveTo (s.skip t)] else []
    | none => []
  | anchor place, s => if place.holds s.toPlace then [s] else []

/-! ### The search -/

/-- What has to follow: it takes a cursor or refuses it. -/
abbrev Follow := Cursor → Option Cursor

/-- Searches `step`, `n` times over. -/
def attemptTimes (step : Cursor → Follow → Option Cursor) : Nat → Cursor → Follow → Option Cursor
  | 0, s, follow => follow s
  | n + 1, s, follow => step s fun t => attemptTimes step n t follow

/-- Searches `step`, up to `n` times over. -/
def attemptUpTo (step : Cursor → Follow → Option Cursor) (reluctant : Bool) :
    Nat → Cursor → Follow → Option Cursor
  | 0, s, follow => follow s
  | n + 1, s, follow =>
    let again := fun (_ : Unit) => step s fun t =>
      if t.ahead.length < s.ahead.length then attemptUpTo step reluctant n t follow else follow t
    if reluctant then
      match follow s with
      | some t => some t
      | none => again ()
    else
      match again () with
      | some t => some t
      | none => follow s

/-- The first of the ways of an expression that `follow` takes. -/
def attempt : Regex → Cursor → Follow → Option Cursor
  | empty, s, follow => follow s
  | oneOf set, s, follow =>
    match s.advance with
    | some (c, p) => if set.holds c then follow (s.moveTo p) else none
    | none => none
  | seq first second, s, follow => first.attempt s fun t => second.attempt t follow
  | alt first second, s, follow =>
    match first.attempt s follow with
    | some t => some t
    | none => second.attempt s follow
  | capture index body, s, follow =>
    body.attempt s fun t => follow (t.enclose index s.toPlace t.toPlace)
  | loop body least most reluctant, s, follow =>
    attemptTimes body.attempt least s fun t =>
      attemptUpTo body.attempt reluctant (rounds least most t.toPlace) t follow
  | possessive body least most nested, s, follow =>
    match hold body least most nested s with
    | some t => follow t
    | none => none
  | atomic body, s, follow =>
    match body.attempt s some with
    | some t => follow t
    | none => none
  | look wanted body, s, follow =>
    match body.attempt s some with
    | some t => if wanted then follow { s with captures := t.captures } else none
    | none => if wanted then none else follow s
  | backref index anyCase, s, follow =>
    match s.captured index with
    | some t => if startsWith anyCase s.ahead t then follow (s.moveTo (s.skip t)) else none
    | none => none
  | anchor place, s, follow => if place.holds s.toPlace then follow s else none

/-! ### The two agree -/

theorem findSome?_flatMap {α β γ : Type} (l : List α) (f : α → List β) (g : β → Option γ) :
    (l.flatMap f).findSome? g = l.findSome? fun a => (f a).findSome? g := by
  induction l with
  | nil => rfl
  | cons a l ih =>
    rw [List.flatMap_cons, List.findSome?_append, ih, List.findSome?_cons]
    cases (f a).findSome? g <;> rfl

theorem attemptTimes_eq {step : Cursor → List Cursor} {search : Cursor → Follow → Option Cursor}
    (h : ∀ s follow, search s follow = (step s).findSome? follow) (n : Nat) (s : Cursor) (follow : Follow) :
    attemptTimes search n s follow = (waysTimes step n s).findSome? follow := by
  induction n generalizing s with
  | zero => simp [attemptTimes, waysTimes]
  | succ n ih => simp [attemptTimes, waysTimes, h, ih, findSome?_flatMap]

theorem attemptUpTo_eq {step : Cursor → List Cursor} {search : Cursor → Follow → Option Cursor}
    (h : ∀ s follow, search s follow = (step s).findSome? follow) (reluctant : Bool) (n : Nat) (s : Cursor)
    (follow : Follow) :
    attemptUpTo search reluctant n s follow = (waysUpTo step reluctant n s).findSome? follow := by
  induction n generalizing s with
  | zero => simp [attemptUpTo, waysUpTo]
  | succ n ih =>
    have again : (search s fun t =>
        if t.ahead.length < s.ahead.length then attemptUpTo search reluctant n t follow else follow t) =
        ((step s).flatMap fun t =>
          if t.ahead.length < s.ahead.length then waysUpTo step reluctant n t else [t]).findSome? follow := by
      rw [h, findSome?_flatMap]
      congr 1
      funext t
      split <;> simp [ih]
    rw [attemptUpTo, waysUpTo]
    simp only [again]
    cases reluctant with
    | true => cases hf : follow s <;> simp [hf]
    | false =>
      simp only [Bool.false_eq_true, if_false, List.findSome?_append, List.findSome?_cons, List.findSome?_nil]
      split
      · next hs => rw [hs]; rfl
      · next hs => rw [hs]; cases follow s <;> rfl

/-- The search finds the first way that `follow` takes. -/
theorem attempt_eq_findSome? (r : Regex) (s : Cursor) (follow : Follow) :
    r.attempt s follow = (r.ways s).findSome? follow := by
  induction r generalizing s follow with
  | empty => simp [attempt, ways]
  | oneOf set =>
    simp only [attempt, ways]
    split
    · split <;> simp
    · simp
  | seq first second ih₁ ih₂ => simp [attempt, ways, ih₁, ih₂, findSome?_flatMap]
  | alt first second ih₁ ih₂ =>
    simp only [attempt, ways, ih₁, ih₂, List.findSome?_append]
    split
    · next hs => rw [hs]; rfl
    · next hs => rw [hs]; rfl
  | capture index body ih => simp [attempt, ways, ih, List.findSome?_map, Function.comp_def]
  | loop body least most reluctant ih =>
    rw [attempt, ways, attemptTimes_eq ih, findSome?_flatMap]
    congr 1
    funext t
    exact attemptUpTo_eq ih reluctant _ t follow
  | possessive body least most nested =>
    simp only [attempt, ways]
    cases hold body least most nested s <;> simp
  | atomic body ih =>
    simp only [attempt, ways, ih]
    cases body.ways s <;> simp
  | look wanted body ih =>
    simp only [attempt, ways, ih]
    cases body.ways s <;> cases wanted <;> simp
  | backref index anyCase =>
    simp only [attempt, ways]
    split
    · split <;> simp
    · simp
  | anchor place =>
    simp only [attempt, ways]
    split <;> simp

/-! ### Matches of a text -/

/-- The first way to match a beginning of the text. -/
def matchStart (r : Regex) (t : Text) : Option Cursor := r.attempt (.ofText t) some

/-- The first way to match the whole text. -/
def matchWhole (r : Regex) (t : Text) : Option Cursor :=
  r.attempt (.ofText t) fun s => if s.ahead.isEmpty then some s else none

/-- Whether the expression matches the whole text. -/
def accepts (r : Regex) (t : Text) : Bool := (r.matchWhole t).isSome

theorem accepts_iff (r : Regex) (t : Text) :
    r.accepts t = true ↔ ∃ s ∈ r.ways (.ofText t), s.ahead = [] := by
  simp only [accepts, matchWhole, attempt_eq_findSome?, List.findSome?_isSome_iff]
  constructor
  · rintro ⟨s, hs, h⟩
    refine ⟨s, hs, ?_⟩
    split at h
    · next he => simpa using he
    · simp at h
  · rintro ⟨s, hs, h⟩
    exact ⟨s, hs, by simp [h]⟩

/-- Whether a match has a capture whose closing edge is before its opening one. Only a possessive loop leaves one. -/
def crosses (r : Regex) (s : Cursor) : Bool := (List.range r.captureCount).any fun i => s.isCrossed (i + 1)

/-- The first match at a cursor, which may be empty only if `emptyToo`. -/
def matchHere (r : Regex) (emptyToo : Bool) (s : Cursor) : Option Cursor :=
  r.attempt { s with captures := [] } fun t =>
    if emptyToo || t.ahead.length < s.ahead.length then some t else none

/-- The matches from a cursor on, left to right and without overlap. A match may follow the one before it at
once, an empty one only where the one before it was not empty. -/
def searchFrom (r : Regex) : Nat → Bool → Cursor → List Cursor
  | 0, _, _ => []
  | fuel + 1, emptyToo, s =>
    match r.matchHere emptyToo s with
    | some t => t :: searchFrom r fuel (t.ahead.length < s.ahead.length) t
    | none =>
      match s.advance with
      | some (_, next) => searchFrom r fuel true (s.moveTo next)
      | none => []

/-- All matches in a text. Each step moves on, or has moved on in the step before, so twice the length of the
text bounds the number of steps. -/
def search (r : Regex) (t : Text) : List Cursor := r.searchFrom (2 * t.length + 2) true (.ofText t)

end Routing.Regex
