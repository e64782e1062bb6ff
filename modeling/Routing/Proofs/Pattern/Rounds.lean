import Routing.Proofs.Pattern.Spelling
import Routing.Proofs.Regex.Longer

/-!
# The rounds of a run

The text of a repeated group is cut into its items by a search for the expression of one round, which is a slash and the
capture of the group (`roundOf`). Where the capture takes no slash, an item has one match, and its value is what the
capture takes of the item at first (`search_runText`). That need not be all of it. The loop of the default capture takes
as many characters as it can first (`head?_ways_runOf`), so there it is (`firstTaken_runOf`).
-/

namespace Routing.Pattern

open Regex

/-! ### First ways -/

section First

variable {first second body : Regex} {s t u : Cursor}

theorem head?_ways_seq (hfirst : (first.ways s).head? = some u) (hsecond : (second.ways u).head? = some t) :
    ((seq first second).ways s).head? = some t := by
  obtain ⟨rest, hrest⟩ := List.head?_eq_some_iff.mp hfirst
  rw [ways, hrest, List.flatMap_cons, List.head?_append, hsecond]
  rfl

theorem head?_ways_capture {index : Nat} (h : (body.ways s).head? = some t) :
    ((Regex.capture index body).ways s).head? = some (t.enclose index s.toPlace t.toPlace) := by
  rw [ways, List.head?_map, h]
  rfl

theorem head?_ways_empty : (Regex.empty.ways s).head? = some s := rfl

theorem head?_ways_oneOf {set : CharSet} {c : Char} {rest : Text} (hs : s.ahead = c :: rest) (hc : set.holds c = true) :
    ((oneOf set).ways s).head? = some (s.moveTo ⟨c :: s.behind, rest⟩) := by
  simp [ways, Place.advance, hs, hc]

end First

/-- A loop over the characters of a set takes all that there are at first. -/
theorem head?_waysUpTo {set : CharSet} {v rest : Text} (hv : ∀ c ∈ v, set.holds c = true)
    (hrest : ∀ c ∈ rest.head?, set.holds c = false) {n : Nat} (hn : v.length ≤ n) {s : Cursor}
    (hs : s.ahead = v ++ rest) :
    ∃ t, (waysUpTo (oneOf set).ways false n s).head? = some t ∧ t.ahead = rest := by
  induction v generalizing n s with
  | nil =>
    have hnone : (oneOf set).ways s = [] := by
      cases rest with
      | nil => simp [ways, Place.advance, hs]
      | cons c rest => simp [ways, Place.advance, hs, hrest c rfl]
    refine ⟨s, ?_, hs⟩
    cases n with
    | zero => rfl
    | succ n => simp [waysUpTo, hnone]
  | cons c v ih =>
    obtain ⟨m, rfl⟩ : ∃ m, n = m + 1 := Nat.exists_eq_succ_of_ne_zero (by simp at hn; omega)
    rw [List.forall_mem_cons] at hv
    have hone : (oneOf set).ways s = [s.moveTo ⟨c :: s.behind, v ++ rest⟩] := by
      simp [ways, Place.advance, hs, hv.1]
    obtain ⟨t, ht, hahead⟩ := ih hv.2 (Nat.le_of_succ_le_succ hn) (s := s.moveTo ⟨c :: s.behind, v ++ rest⟩) rfl
    have hmoved : (s.moveTo ⟨c :: s.behind, v ++ rest⟩).ahead.length < s.ahead.length := by
      simp [hs, Cursor.moveTo]
    refine ⟨t, ?_, hahead⟩
    simp only [waysUpTo, hone, List.flatMap_cons, List.flatMap_nil, List.append_nil, if_pos hmoved,
      Bool.false_eq_true, if_false, List.head?_append, ht]
    rfl

/-- A run of characters other than a slash is taken up to the next slash at first. -/
theorem head?_ways_runOf {v rest : Text} (hv : v ∈ without '/') (hrest : ∀ c ∈ rest.head?, c = '/') {s : Cursor}
    (hs : s.ahead = v ++ rest) : ∃ t, ((runOf '/').ways s).head? = some t ∧ t.ahead = rest := by
  obtain ⟨hne, hslash⟩ := hv
  obtain ⟨c, v, rfl⟩ := List.exists_cons_of_ne_nil hne
  have hall : ∀ x ∈ c :: v, (⟨[.range '/'.toNat '/'.toNat], true, false⟩ : CharSet).holds x = true :=
    fun x hx => holds_complement.mpr fun h => hslash (h ▸ hx)
  have hstop : ∀ x ∈ rest.head?, (⟨[.range '/'.toNat '/'.toNat], true, false⟩ : CharSet).holds x = false := by
    intro x hx
    rw [Bool.eq_false_iff, ne_eq, holds_complement]
    exact not_not_intro (hrest x hx)
  rw [List.forall_mem_cons] at hall
  have hone : (oneOf ⟨[.range '/'.toNat '/'.toNat], true, false⟩).ways s = [s.moveTo ⟨c :: s.behind, v ++ rest⟩] := by
    have hc := hall.1
    simp only [ways, Place.advance, hs, List.cons_append, hc, if_true]
  obtain ⟨t, ht, hahead⟩ := @head?_waysUpTo _ v rest hall.2 hstop ((v ++ rest).length + 1) (by simp; omega)
    (s.moveTo ⟨c :: s.behind, v ++ rest⟩) rfl
  refine ⟨t, ?_, hahead⟩
  have hways : (runOf '/').ways s = waysUpTo (oneOf ⟨[.range '/'.toNat '/'.toNat], true, false⟩).ways false
      ((v ++ rest).length + 1) (s.moveTo ⟨c :: s.behind, v ++ rest⟩) := by
    rw [runOf, ways, waysTimes, hone, List.flatMap_singleton, waysTimes, List.flatMap_singleton]
    rfl
  rw [hways]
  exact ht

/-! ### The search -/

/-- The expression of one round of a repeated group: a slash and what is captured. -/
def roundOf (e : Regex) : Regex := seqAll [.oneOf (.single '/' false), .capture 1 e]

/-- What an expression takes of a text at first, where it need not take all. -/
def firstTaken (e : Regex) (t : Text) : Text :=
  ((e.matchStart t).map fun s => t.take (t.length - s.ahead.length)).getD []

theorem matchStart_eq_head? (e : Regex) (t : Text) : e.matchStart t = (e.ways (.ofText t)).head? := by
  rw [matchStart, attempt_eq_findSome?]
  cases e.ways (.ofText t) <;> rfl

theorem firstTaken_of_head? {e : Regex} {t w : Text} {s : Cursor} (hs : (e.ways (.ofText t)).head? = some s)
    (ht : t = w ++ s.ahead) : firstTaken e t = w := by
  have hlength : t.length - s.ahead.length = w.length := by
    rw [ht, List.length_append, Nat.add_sub_cancel]
  rw [firstTaken, matchStart_eq_head?, hs, Option.map_some, Option.getD_some, hlength, ht, List.take_left]

/-- What is taken at first is a word. -/
theorem exists_firstTaken {e : Regex} (he : e.IsRegular) {t : Text} (ht : t ∈ e.language) :
    ∃ s, (e.ways (.ofText t)).head? = some s ∧ t = firstTaken e t ++ s.ahead ∧ firstTaken e t ∈ e.language := by
  obtain ⟨u, hu, -⟩ := exists_way_of_mem_language he (s := .ofText t) ht (List.append_nil t).symm
  obtain ⟨s, hs⟩ : ∃ s, (e.ways (.ofText t)).head? = some s := by
    rw [← Option.isSome_iff_exists, List.isSome_head?]
    exact List.ne_nil_of_mem hu
  obtain ⟨w, hw, hahead⟩ := exists_mem_language he (List.mem_of_mem_head? hs)
  have htaken : firstTaken e t = w := firstTaken_of_head? hs hahead
  rw [htaken]
  exact ⟨s, hs, hahead, hw⟩

/-- A word without a slash ends before the first slash. -/
theorem length_le_of_prefix {w x y : Text} (hw : '/' ∉ w) (hy : ∀ c ∈ y.head?, c = '/') (h : w <+: x ++ y) :
    w.length ≤ x.length := by
  by_contra hlong
  obtain ⟨rest, hrest⟩ := h
  rcases List.append_eq_append_iff.mp hrest with ⟨v, hx, -⟩ | ⟨v, rfl, rfl⟩
  · rw [hx, List.length_append] at hlong
    omega
  · cases v with
    | nil => simp at hlong
    | cons c v => exact hw (by simp [hy c rfl])

section Search

variable {e : Regex} {s t : Cursor} {emptyToo : Bool}

theorem matchHere_of_head? {r : Regex} (h : (r.ways { s with captures := [] }).head? = some t)
    (hmoved : t.ahead.length < s.ahead.length) : r.matchHere emptyToo s = some t := by
  obtain ⟨others, hways⟩ := List.head?_eq_some_iff.mp h
  rw [matchHere, attempt_eq_findSome?, hways, List.findSome?_cons]
  simp [hmoved]

/-- A round starts with a slash. -/
theorem matchHere_roundOf_of_head?_ne (hs : s.ahead.head? ≠ some '/') : (roundOf e).matchHere emptyToo s = none := by
  have hnone : (oneOf (.single '/' false)).ways { s with captures := [] } = [] := by
    rw [ways, Place.advance]
    cases hahead : s.ahead with
    | nil => rfl
    | cons c rest =>
      rw [hahead] at hs
      have hc : (CharSet.single '/' false).holds c = false := by
        rw [Bool.eq_false_iff, ne_eq, holds_single]
        rintro rfl
        exact hs rfl
      simp [hc]
  have hround : (roundOf e).ways { s with captures := [] } = [] := by
    rw [roundOf, seqAll, List.foldr_cons, ways, hnone, List.flatMap_nil]
  rw [matchHere, attempt_eq_findSome?, hround]
  rfl

variable (he : e.IsRegular) (hslash : ∀ w ∈ e.language, '/' ∉ w)

include he hslash

/-- The first way through a round captures what is taken of its item at first, and the rest of the item stays. -/
theorem head?_ways_roundOf {x y : Text} (hx : x ∈ e.language) (hy : ∀ c ∈ y.head?, c = '/')
    (hs : s.ahead = '/' :: x ++ y) :
    ∃ t z, ((roundOf e).ways s).head? = some t ∧ t.ahead = z ++ y ∧ x = firstTaken e x ++ z ∧
      t.captured 1 = some (firstTaken e x) := by
  obtain ⟨u, hu, htaken, -⟩ := exists_firstTaken he hx
  let opened : Cursor := s.moveTo ⟨'/' :: s.behind, x ++ y⟩
  have hopen := @head?_ways_oneOf s (.single '/' false) _ _ hs (holds_single.mpr rfl)
  -- no word goes on into the next round, so the first way is the one in the item by itself
  have hopened : Longer y opened (.ofText x) := rfl
  obtain ⟨u', hu', hlonger⟩ := head?_ways_longer he hopened
    (fun w hw hprefix => length_le_of_prefix (hslash w hw) hy hprefix) hu
  have hahead : u'.ahead = u.ahead ++ y := hlonger
  have hitem : opened.ahead = firstTaken e x ++ u'.ahead := by
    rw [hahead, ← List.append_assoc, ← htaken]
    rfl
  refine ⟨u'.enclose 1 opened.toPlace u'.toPlace, u.ahead,
    head?_ways_seq hopen (head?_ways_seq (head?_ways_capture hu') head?_ways_empty), hahead, htaken,
    Cursor.captured_enclose_self hitem⟩

/-- Each item of a run has one match, wherever the match before it ended. -/
theorem searchFrom_runText {items : List Text} (hitems : ∀ x ∈ items, x ∈ e.language) {fuel : Nat} {z : Text}
    (hz : '/' ∉ z) (hs : s.ahead = z ++ runText items) (hfuel : s.ahead.length < fuel) :
    ((roundOf e).searchFrom fuel emptyToo s).map (·.captured 1) = items.map fun x => some (firstTaken e x) := by
  induction fuel generalizing items z emptyToo s with
  | zero => omega
  | succ fuel ih =>
    cases z with
    | cons c z =>
      -- what is left of an item is passed over
      rw [List.mem_cons, not_or] at hz
      have hnone : (roundOf e).matchHere emptyToo s = none := by
        apply matchHere_roundOf_of_head?_ne
        rw [hs]
        exact fun h => hz.1 (Option.some.inj h).symm
      have hnext : s.advance = some (c, ⟨c :: s.behind, z ++ runText items⟩) := by
        rw [Place.advance, hs]
        rfl
      rw [hs, List.cons_append, List.length_cons] at hfuel
      rw [searchFrom, hnone, hnext]
      exact ih hitems hz.2 rfl (Nat.lt_of_succ_lt_succ hfuel)
    | nil =>
      cases items with
      | nil =>
        have hend : s.ahead = [] := hs
        have hnone : (roundOf e).matchHere emptyToo s = none := matchHere_roundOf_of_head?_ne (by simp [hend])
        simp [searchFrom, hnone, Place.advance, hend]
      | cons x items =>
        rw [List.forall_mem_cons] at hitems
        have hahead : ({ s with captures := [] } : Cursor).ahead = '/' :: x ++ runText items := hs
        have hnext : ∀ c ∈ (runText items).head?, c = '/' := by
          intro c hc
          cases items with
          | nil => cases hc
          | cons w items => exact (Option.some.inj hc).symm
        obtain ⟨t, z, ht, hrest, hitem, hcaptured⟩ := head?_ways_roundOf he hslash hitems.1 hnext hahead
        have hz : '/' ∉ z := by
          intro hmem
          apply hslash x hitems.1
          rw [hitem]
          exact List.mem_append_right _ hmem
        have hmoved : t.ahead.length < s.ahead.length := by
          have hround : s.ahead = '/' :: (x ++ runText items) := hs
          have hlength := congrArg List.length hitem
          rw [List.length_append] at hlength
          rw [hrest, hround, List.length_cons, List.length_append, List.length_append]
          omega
        have hstep : (roundOf e).searchFrom (fuel + 1) emptyToo s = t :: (roundOf e).searchFrom fuel true t := by
          rw [searchFrom, matchHere_of_head? ht hmoved]
          simp only [hmoved, decide_true]
        rw [hstep, List.map_cons, List.map_cons, hcaptured, ih hitems.2 hz hrest (by omega)]

theorem search_runText {items : List Text} (hitems : ∀ x ∈ items, x ∈ e.language) :
    ((roundOf e).search (runText items)).map (·.captured 1) = items.map fun x => some (firstTaken e x) := by
  refine searchFrom_runText he hslash hitems List.not_mem_nil rfl ?_
  show (runText items).length < _
  omega

end Search

/-! ### The default capture -/

/-- The expression of one round of a repeated group with the default capture. -/
def roundExpr (name : Text) : Regex := exprOf '/' false 0 [.literal ['/'], .variable name (defaultCapture ['/'])]

theorem roundExpr_eq (name : Text) : roundExpr name = roundOf (seqAll [runOf '/']) := by
  simp [roundExpr, roundOf, exprOf, itemsOf]

theorem language_defaultCapture : (seqAll [runOf '/']).language = without '/' := by
  rw [language_seqAll_singleton, language_runOf]

/-- The default capture takes all of an item. -/
theorem firstTaken_runOf {v : Text} (hv : v ∈ without '/') : firstTaken (seqAll [runOf '/']) v = v := by
  obtain ⟨t, ht, hrest⟩ := head?_ways_runOf hv (by simp) (s := .ofText v) (List.append_nil v).symm
  apply firstTaken_of_head? (head?_ways_seq ht head?_ways_empty)
  rw [hrest, List.append_nil]

end Routing.Pattern
