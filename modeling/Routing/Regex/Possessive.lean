import Routing.Regex.Place

/-!
# Possessive loops

A possessive loop goes round as often as it can and takes no round back. The round that fails is the last one. It
gives back what it captured but not its place: the loop goes on from where that round made its last choice, so
`(?:ab?c)*+` gets past the last `a` of `aca`. Hence the search in a round hands a cursor through that says where the
last choice was made, besides the place that the round itself has come to.

Choices are made by alternatives and by loops. An alternative whose first character is not ahead is no choice, and
neither is a number of rounds after which the character that has to follow is not ahead.

A choice that fails gives back what it captured if the possessive loop stands in another loop. Elsewhere it gives
back only captures that were new: one that was there before keeps the edges that it was given.
-/

namespace Routing.Regex

/-- The place of an edge in the order of captures. -/
def Edge.rank (e : Edge) : Nat := 2 * e.index + if e.closing then 1 else 0

/-- The rank that no edge of a list exceeds. -/
def topRank (edges : List Edge) : Nat := edges.foldl (fun n e => max n e.rank) 0

/-- The cursor after a choice that failed, given the captures before it. -/
def Cursor.giveBack (s : Cursor) (nested : Bool) (before : List Edge) : Cursor :=
  { s with captures := if nested then before else s.captures.filter fun e => e.rank ≤ topRank before }

/-! ### What is ahead -/

/-- The set as one character, if it is one. -/
def CharSet.letter? (set : CharSet) : Option Nat :=
  match set.complement, set.items with
  | false, [.range first last] =>
    if first = last ∧ !(set.anyCase && Text.isCased first) then some first else none
  | _, _ => none

/-- Whether no character of the set has another one that differs by case only. -/
def CharSet.isCaseless (set : CharSet) : Bool :=
  set.items.all fun item =>
    match item with
    | .range first last => (List.range (last + 1 - first)).all fun i => !Text.isCased (first + i)
    | .category _ _ => true

/-- Whether the next character is held against the set before anything else of an alternative is tried. That is so for
single characters and for sets, but for none where case has to be looked at. -/
def CharSet.isTried (set : CharSet) : Bool :=
  set.letter?.isSome ||
    (!(set.anyCase && !set.isCaseless) &&
      match set.complement, set.items with
      | true, [.range first last] => first != last
      | true, [] => false
      | _, _ => true)

/-- The character that an expression starts with, given the one that follows it. -/
def lead : Regex → Option Nat → Option Nat
  | empty, next => next
  | oneOf set, _ => set.letter?
  | seq first second, next => first.lead (second.lead next)
  | _, _ => none

/-- The set that the first character of an alternative has to be in, where it is tried before anything else. -/
def leadSet (r : Regex) : Option CharSet :=
  match r.parts with
  | oneOf set :: _ => if set.isTried then some set else none
  | _ => none

/-- Whether a character is ahead, if there has to be one. -/
def Place.allows (p : Place) : Option Nat → Bool
  | none => true
  | some n => p.ahead.head?.any (·.toNat == n)

/-- Whether an alternative can be left out at a place. -/
def Place.refuses (p : Place) (r : Regex) : Bool :=
  match r.leadSet with
  | none => false
  | some set => !p.ahead.head?.any set.holds

/-- The places that up to `n` characters of a set lead to, the nearest one first. -/
def Place.stops (set : CharSet) : Nat → Place → List Place
  | 0, p => [p]
  | n + 1, p =>
    match p.advance with
    | some (c, q) => if set.holds c then p :: stops set n q else [p]
    | none => [p]

/-! ### The search in a round -/

/-- What has to follow at a place in a round. It tells whether it succeeds, and the cursor where the last choice was
made, or the one that was reached. -/
abbrev Onward := Place → Cursor → Bool × Cursor

/-- Nothing has to follow. -/
def arrive : Onward := fun p s => (true, s.moveTo p)

/-- Tries one place after the other. -/
def tryPlaces (nested : Bool) (next : Option Nat) (onward : Onward) : List Place → Cursor → Bool × Cursor
  | [], s => (false, s)
  | p :: rest, s =>
    if p.allows next then
      match onward p (s.moveTo p) with
      | (true, t) => (true, t)
      | (false, t) => tryPlaces nested next onward rest (t.giveBack nested s.captures)
    else tryPlaces nested next onward rest s

/-- Tries an alternative. -/
def tryBranch (nested : Bool) (r : Regex) (search : Onward) (p : Place) (s : Cursor) : Bool × Cursor :=
  if p.refuses r then (false, s)
  else
    match search p (s.moveTo p) with
    | (true, t) => (true, t)
    | (false, t) => (false, t.giveBack nested s.captures)

/-- Goes on from a place, to which a failure comes back. -/
def tryOn (onward : Onward) (p : Place) (s : Cursor) : Bool × Cursor :=
  match onward p (s.moveTo p) with
  | (true, t) => (true, t)
  | (false, t) => (false, t.moveTo p)

/-- The required rounds of a loop. -/
def runTimes (step : Place → Cursor → Onward → Bool × Cursor) : Nat → Onward → Onward
  | 0, onward => onward
  | n + 1, onward => tryOn fun p s => step p s (runTimes step n onward)

/-- The other rounds of a loop; a round that does not move on is the last one. -/
def runUpTo (step : Place → Cursor → Onward → Bool × Cursor) (nested reluctant : Bool) (onward : Onward) :
    Nat → Onward
  | 0 => tryOn onward
  | n + 1 => fun p s =>
    let again := tryOn fun p s => step p s fun q t =>
      if q.ahead.length < p.ahead.length then runUpTo step nested reluctant onward n q t else tryOn onward q t
    if reluctant then
      match tryOn onward p s with
      | (true, t) => (true, t)
      | (false, t) => again p (t.giveBack nested s.captures)
    else
      match again p s with
      | (true, t) => (true, t)
      | (false, t) => tryOn onward p { t with captures := s.captures }

/-- The required rounds of a possessive loop. -/
def holdTimes (round : Cursor → Bool × Cursor) : Nat → Cursor → Bool × Cursor
  | 0, s => (true, s)
  | n + 1, s =>
    match round s with
    | (true, t) => holdTimes round n t
    | (false, t) => (false, t)

/-- The other rounds of a possessive loop. -/
def holdUpTo (round : Cursor → Bool × Cursor) : Nat → Cursor → Cursor
  | 0, s => s
  | n + 1, s =>
    match round s with
    | (true, t) => if t.ahead.length < s.ahead.length then holdUpTo round n t else t
    | (false, t) => { t with captures := s.captures }

/-- All rounds of a possessive loop. -/
def holdAll (round : Cursor → Bool × Cursor) (least : Nat) (most : Option Nat) (s : Cursor) : Bool × Cursor :=
  match holdTimes round least s with
  | (true, t) => (true, holdUpTo round (rounds least most t.toPlace) t)
  | (false, t) => (false, t)

/-- A loop over the characters of a set. -/
def runSet (set : CharSet) (least : Nat) (most : Option Nat) (nested reluctant : Bool) (next : Option Nat)
    (onward : Onward) (p : Place) (s : Cursor) : Bool × Cursor :=
  if p.ahead.length < least then (false, s)
  else
    let ends := (p.stops set (most.getD p.ahead.length)).drop least
    if reluctant then
      match tryPlaces nested none onward ends (s.moveTo p) with
      | (true, t) => (true, t)
      | (false, t) => (false, t.moveTo (ends.getLast?.getD p))
    else tryPlaces nested next onward ends.reverse (s.moveTo p)

/-- A possessive loop over the characters of a set. -/
def holdSet (set : CharSet) (least : Nat) (most : Option Nat) (onward : Onward) (p : Place) (s : Cursor) :
    Bool × Cursor :=
  if p.ahead.length < least then (false, s)
  else
    match ((p.stops set (most.getD p.ahead.length)).drop least).getLast? with
    | some q => onward q (s.moveTo q)
    | none => (false, s.moveTo p)

/-- Searches the ways of an expression at a place. `next` is the character that follows the expression, where it is
known. -/
def run (nested : Bool) : Regex → Option Nat → Place → Cursor → Onward → Bool × Cursor
  | empty, _, p, s, onward => onward p s
  | oneOf set, _, p, s, onward =>
    match p.advance with
    | some (c, q) => if set.holds c then onward q s else (false, s)
    | none => (false, s)
  | seq first second, next, p, s, onward =>
    run nested first (second.lead next) p s fun q t => run nested second next q t onward
  | alt first second, _, p, s, onward =>
    match tryBranch nested first (fun p s => run nested first none p s onward) p s with
    | (true, t) => (true, t)
    | (false, t) =>
      match second with
      | .alt _ _ => run nested second none p t onward
      | _ => tryBranch nested second (fun p s => run nested second none p s onward) p t
  | capture index body, _, p, s, onward =>
    run nested body none p (s.mark index false p) fun q t => onward q (t.mark index true q)
  | loop body least most reluctant, next, p, s, onward =>
    match body.unit? with
    | some set => runSet set least most nested reluctant next onward p s
    | none =>
      runTimes (run true body none) least
        (fun q t => runUpTo (run true body none) nested reluctant onward (rounds least most q) q t) p (s.moveTo p)
  | possessive body least most _, _, p, s, onward =>
    match body.unit? with
    | some set => holdSet set least most onward p s
    | none =>
      match holdAll (fun t => run nested body none t.toPlace t arrive) least most (s.moveTo p) with
      | (true, t) => onward t.toPlace t
      | (false, t) => (false, t.moveTo p)
  | atomic body, _, p, s, onward =>
    match run nested body none p (s.moveTo p) arrive with
    | (true, t) => onward t.toPlace t
    | (false, t) => (false, t.moveTo p)
  | look wanted body, _, p, s, onward =>
    match run nested body none p (s.moveTo p) arrive with
    | (true, t) => if wanted then onward p t else (false, t)
    | (false, t) => if wanted then (false, t) else onward p (t.giveBack nested s.captures)
  | backref index anyCase, _, p, s, onward =>
    match s.captured index with
    | some text => if startsWith anyCase p.ahead text then onward (p.skip text) s else (false, s)
    | none => (false, s)
  | anchor place, _, p, s, onward => if place.holds p then onward p s else (false, s)

/-- The cursor that a possessive loop reaches, if its required rounds succeed. -/
def hold (body : Regex) (least : Nat) (most : Option Nat) (nested : Bool) (s : Cursor) : Option Cursor :=
  match holdAll (fun t => run nested body none t.toPlace t arrive) least most s with
  | (true, t) => some t
  | (false, _) => none

end Routing.Regex
