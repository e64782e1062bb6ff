import Routing.Proofs.Regex.Capture

/-!
# Ways in a longer text

More text behind a text adds ways to a regular expression, but takes none away, and leaves their order: the ways that do
not go into the added text are those in the text alone, one by one (`ways_longer`). So where no word of the expression
can go into it, the first way is the same (`head?_ways_longer`).

A loop has more rounds left in a longer text, but it never uses them: the number of rounds that are left does not matter
where it is more than the length of the text ahead (`waysUpTo_of_lt`).
-/

namespace Routing.Regex

/-! ### Steps in a longer text -/

section Steps

variable (y : Text)

/-- Whether a text `y` is all ahead of a cursor, or more than it. -/
def Cursor.keeps (t : Cursor) : Bool := y.length ≤ t.ahead.length

/-- Whether a cursor has the text of another one ahead, and then `y`. -/
def Longer (s' s : Cursor) : Prop := s'.ahead = s.ahead ++ y

/-- Whether a step finds in a longer text what it finds in the text alone, and beyond that only ways into what was
added. -/
def Extends (step : Cursor → List Cursor) : Prop :=
  ∀ s s', Longer y s' s → List.Forall₂ (Longer y) ((step s').filter (Cursor.keeps y)) (step s)

/-- Whether a step never goes back. -/
def Advances (step : Cursor → List Cursor) : Prop := ∀ s t, t ∈ step s → t.ahead.length ≤ s.ahead.length

end Steps

variable {y : Text} {step next : Cursor → List Cursor}

theorem Longer.keeps {s s' : Cursor} (h : Longer y s' s) : s'.keeps y = true := by
  simp [Cursor.keeps, show s'.ahead = s.ahead ++ y from h]

theorem Longer.length_lt_iff {s s' t t' : Cursor} (hs : Longer y s' s) (ht : Longer y t' t) :
    t'.ahead.length < s'.ahead.length ↔ t.ahead.length < s.ahead.length := by
  rw [show s'.ahead = s.ahead ++ y from hs, show t'.ahead = t.ahead ++ y from ht, List.length_append, List.length_append]
  omega

theorem extends_singleton : Extends y fun s => [s] := by
  intro s s' h
  rw [List.filter_cons_of_pos h.keeps, List.filter_nil]
  exact .cons h .nil

theorem Extends.append (h₁ : Extends y step) (h₂ : Extends y next) : Extends y fun s => step s ++ next s := by
  intro s s' h
  rw [List.filter_append]
  exact List.rel_append (h₁ s s' h) (h₂ s s' h)

/-- What goes into the added text does not come back. -/
theorem filter_eq_nil (hnext : Advances next) {t : Cursor} (ht : t.keeps y = false) :
    (next t).filter (Cursor.keeps y) = [] := by
  rw [List.filter_eq_nil_iff]
  intro u hu
  have := hnext t u hu
  simp only [Cursor.keeps, decide_eq_false_iff_not, decide_eq_true_eq] at ht ⊢
  omega

theorem flatMap_filter {l : List Cursor} {p : Cursor → Bool} (h : ∀ t ∈ l, p t = false → next t = []) :
    (l.filter p).flatMap next = l.flatMap next := by
  induction l with
  | nil => rfl
  | cons t l ih =>
    rw [List.forall_mem_cons] at h
    cases hp : p t with
    | true => rw [List.filter_cons_of_pos hp, List.flatMap_cons, List.flatMap_cons, ih h.2]
    | false => rw [List.filter_cons_of_neg (by simp [hp]), List.flatMap_cons, h.1 hp, List.nil_append, ih h.2]

/-- A step after another one. It may depend on where the first one began. -/
theorem forall₂_flatMap {l l' : List Cursor} {next next' : Cursor → List Cursor}
    (hl : List.Forall₂ (Longer y) (l'.filter (Cursor.keeps y)) l) (hadvances : Advances next')
    (hnext : ∀ t t', Longer y t' t → List.Forall₂ (Longer y) ((next' t').filter (Cursor.keeps y)) (next t)) :
    List.Forall₂ (Longer y) ((l'.flatMap next').filter (Cursor.keeps y)) (l.flatMap next) := by
  rw [List.filter_flatMap, ← flatMap_filter (p := Cursor.keeps y) fun t _ ht => filter_eq_nil hadvances ht]
  exact List.rel_flatMap hl fun t' t ht => hnext t t' ht

theorem Extends.flatMap (h₁ : Extends y step) (h₂ : Extends y next) (hadvances : Advances next) :
    Extends y fun s => (step s).flatMap next :=
  fun s s' h => forall₂_flatMap (h₁ s s' h) hadvances h₂

/-! ### Loops -/

theorem extends_waysTimes (h : Extends y step) (hadvances : Advances step) (n : Nat) :
    Extends y (waysTimes step n) ∧ Advances (waysTimes step n) := by
  induction n with
  | zero => exact ⟨extends_singleton, fun s t ht => by simp [List.mem_singleton.mp ht]⟩
  | succ n ih =>
    refine ⟨h.flatMap ih.1 ih.2, fun s t ht => ?_⟩
    obtain ⟨u, hu, ht⟩ := mem_waysTimes_succ.mp ht
    exact Nat.le_trans (ih.2 u t ht) (hadvances s u hu)

theorem advances_waysUpTo (hadvances : Advances step) (reluctant : Bool) (n : Nat) :
    Advances (waysUpTo step reluctant n) := by
  induction n with
  | zero => exact fun s t ht => by simp [List.mem_singleton.mp ht]
  | succ n ih =>
    intro s t ht
    rcases mem_waysUpTo_succ.mp ht with rfl | ⟨u, hu, ht⟩
    · exact Nat.le_refl _
    · have hle := hadvances s u hu
      split at ht
      · exact Nat.le_trans (ih u t ht) hle
      · rwa [ht]

theorem extends_waysUpTo (h : Extends y step) (hadvances : Advances step) (reluctant : Bool) (n : Nat) :
    Extends y (waysUpTo step reluctant n) := by
  induction n with
  | zero => exact extends_singleton
  | succ n ih =>
    intro s s' hs
    have hself : List.Forall₂ (Longer y) ([s'].filter (Cursor.keeps y)) [s] := extends_singleton s s' hs
    -- a round moves on in the longer text exactly if it does in the text alone
    have hagain : List.Forall₂ (Longer y)
        (((step s').flatMap fun t =>
          if t.ahead.length < s'.ahead.length then waysUpTo step reluctant n t else [t]).filter (Cursor.keeps y))
        ((step s).flatMap fun t => if t.ahead.length < s.ahead.length then waysUpTo step reluctant n t else [t]) := by
      refine forall₂_flatMap (h s s' hs) ?_ ?_
      · intro t u hu
        simp only at hu
        split at hu
        · exact advances_waysUpTo hadvances reluctant n t u hu
        · rw [List.mem_singleton.mp hu]
      · intro t t' ht
        simp only [hs.length_lt_iff ht]
        split
        · exact ih t t' ht
        · exact extends_singleton t t' ht
    simp only [waysUpTo]
    cases reluctant with
    | true =>
      rw [if_pos rfl, if_pos rfl, ← List.singleton_append, List.filter_append]
      exact List.rel_append hself hagain
    | false =>
      rw [if_neg Bool.false_ne_true, if_neg Bool.false_ne_true, List.filter_append]
      exact List.rel_append hagain hself

/-- More rounds than there are characters ahead do not matter: every round but the last one moves on. -/
theorem waysUpTo_of_lt (reluctant : Bool) {n m : Nat} {s : Cursor} (hn : s.ahead.length < n) (hm : s.ahead.length < m) :
    waysUpTo step reluctant n s = waysUpTo step reluctant m s := by
  induction n generalizing m s with
  | zero => omega
  | succ n ih =>
    obtain ⟨m, rfl⟩ := Nat.exists_eq_succ_of_ne_zero (show m ≠ 0 by omega)
    have hagain : ∀ t : Cursor, (if t.ahead.length < s.ahead.length then waysUpTo step reluctant n t else [t]) =
        if t.ahead.length < s.ahead.length then waysUpTo step reluctant m t else [t] := by
      intro t
      split
      · exact ih (by omega) (by omega)
      · rfl
    simp only [waysUpTo, hagain]

/-! ### Expressions -/

theorem advances_ways {r : Regex} (hr : r.IsRegular) : Advances r.ways := by
  intro s t ht
  obtain ⟨w, -, hahead⟩ := exists_mem_language hr ht
  rw [hahead, List.length_append]
  omega

/-- The ways of a regular expression in a longer text are those in the text alone, and others into what was added. -/
theorem ways_longer {r : Regex} (hr : r.IsRegular) : Extends y r.ways := by
  induction r with
  | empty => exact extends_singleton
  | oneOf set =>
    intro s s' hs
    have hahead : s'.ahead = s.ahead ++ y := hs
    cases h : s.ahead with
    | nil =>
      have hnone : (oneOf set).ways s = [] := by simp [ways, Place.advance, h]
      rw [hnone, List.forall₂_nil_right_iff, List.filter_eq_nil_iff]
      intro t ht
      obtain ⟨c, rest, hc, -, rfl⟩ := mem_ways_oneOf.mp ht
      rw [hahead, h, List.nil_append] at hc
      simp [Cursor.keeps, Cursor.moveTo, hc]
    | cons c rest =>
      rw [h, List.cons_append] at hahead
      simp only [ways, Place.advance, h, hahead]
      split
      · exact extends_singleton _ _ rfl
      · exact .nil
  | seq first second ih₁ ih₂ => exact (ih₁ hr.1).flatMap (ih₂ hr.2) (advances_ways hr.2)
  | alt first second ih₁ ih₂ => exact (ih₁ hr.1).append (ih₂ hr.2)
  | capture index body ih =>
    intro s s' hs
    have hfilter : ((capture index body).ways s').filter (Cursor.keeps y) =
        ((body.ways s').filter (Cursor.keeps y)).map fun t => t.enclose index s'.toPlace t.toPlace := by
      rw [ways, List.filter_map]
      rfl
    rw [hfilter, ways, List.forall₂_map_left_iff, List.forall₂_map_right_iff]
    exact ih hr s s' hs
  | loop body least most reluctant ih =>
    intro s s' hs
    have hbody := advances_ways (r := body) hr
    obtain ⟨htimes, -⟩ := extends_waysTimes (ih hr) hbody least
    refine forall₂_flatMap (htimes s s' hs) (fun t u hu => advances_waysUpTo hbody reluctant _ t u hu) ?_
    intro t t' ht
    have hrounds := extends_waysUpTo (ih hr) hbody reluctant (rounds least most t'.toPlace) t t' ht
    cases most with
    | some m => exact hrounds
    | none =>
      have hlength : t'.ahead.length = t.ahead.length + y.length := by
        rw [show t'.ahead = t.ahead ++ y from ht, List.length_append]
      rwa [rounds, waysUpTo_of_lt (m := t.ahead.length + 1) reluctant (by omega) (Nat.lt_succ_self _)] at hrounds
  | possessive => exact hr.elim
  | atomic => exact hr.elim
  | look => exact hr.elim
  | backref => exact hr.elim
  | anchor => exact hr.elim

/-- Where no word goes into the added text, the first way is the one in the text alone. -/
theorem head?_ways_longer {r : Regex} (hr : r.IsRegular) {s s' t : Cursor} (hs : Longer y s' s)
    (hwords : ∀ w ∈ r.language, w <+: s'.ahead → w.length ≤ s.ahead.length) (ht : (r.ways s).head? = some t) :
    ∃ t', (r.ways s').head? = some t' ∧ Longer y t' t := by
  have hkept : (r.ways s').filter (Cursor.keeps y) = r.ways s' := by
    rw [List.filter_eq_self]
    intro u hu
    obtain ⟨w, hw, hahead⟩ := exists_mem_language hr hu
    have hword := hwords w hw ⟨_, hahead.symm⟩
    have hlength := congrArg List.length (show s'.ahead = s.ahead ++ y from hs)
    rw [hahead, List.length_append, List.length_append] at hlength
    simp only [Cursor.keeps, decide_eq_true_eq]
    omega
  have hall := ways_longer hr s s' hs
  rw [hkept] at hall
  obtain ⟨rest, hrest⟩ := List.head?_eq_some_iff.mp ht
  rw [hrest] at hall
  cases hways : r.ways s' with
  | nil =>
    rw [hways] at hall
    cases hall
  | cons t' rest' =>
    rw [hways] at hall
    exact ⟨t', rfl, (List.forall₂_cons.mp hall).1⟩

end Routing.Regex
