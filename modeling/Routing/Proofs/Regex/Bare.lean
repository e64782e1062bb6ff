import Routing.Proofs.Regex.Language

/-!
# Expressions without captures

An expression without captures and references to them leaves the captures alone and stays in its text, whatever it is
made of (`holds_of_mem_ways`). So a possessive loop has no captures to give back, and it is all the same whether it
stands in another loop (`ways_nest`).
-/

namespace Routing.Regex

/-! ### What the rounds of a loop keep -/

section Rounds

variable {step : Cursor → List Cursor} {R : Cursor → Cursor → Prop}

theorem waysTimes_relates (hrefl : ∀ s, R s s) (htrans : ∀ s t u, R s t → R t u → R s u)
    (hstep : ∀ s t, t ∈ step s → R s t) (n : Nat) {s t : Cursor} (h : t ∈ waysTimes step n s) : R s t := by
  induction n generalizing s with
  | zero =>
    have hts : t = s := by simpa [waysTimes] using h
    exact hts ▸ hrefl s
  | succ n ih =>
    obtain ⟨u, hu, ht⟩ := mem_waysTimes_succ.mp h
    exact htrans s u t (hstep s u hu) (ih ht)

theorem waysUpTo_relates (hrefl : ∀ s, R s s) (htrans : ∀ s t u, R s t → R t u → R s u)
    (hstep : ∀ s t, t ∈ step s → R s t) (reluctant : Bool) (n : Nat) {s t : Cursor}
    (h : t ∈ waysUpTo step reluctant n s) : R s t := by
  induction n generalizing s with
  | zero =>
    have hts : t = s := by simpa [waysUpTo] using h
    exact hts ▸ hrefl s
  | succ n ih =>
    rcases mem_waysUpTo_succ.mp h with rfl | ⟨u, hu, ht⟩
    · exact hrefl t
    · split at ht
      · exact htrans s u t (hstep s u hu) (ih ht)
      · exact ht ▸ hstep s u hu

end Rounds

/-! ### Bare expressions -/

/-- Whether an expression has no captures and no references to captures. -/
def IsBare : Regex → Prop
  | empty => True
  | oneOf _ => True
  | seq first second => first.IsBare ∧ second.IsBare
  | alt first second => first.IsBare ∧ second.IsBare
  | capture _ _ => False
  | loop body _ _ _ => body.IsBare
  | possessive body _ _ _ => body.IsBare
  | atomic body => body.IsBare
  | look _ body => body.IsBare
  | backref _ _ => False
  | anchor _ => True

theorem isBare_of_isRegular {r : Regex} (hr : r.IsRegular) (h0 : r.captureCount = 0) : r.IsBare := by
  induction r with
  | empty => trivial
  | oneOf => trivial
  | seq first second ih₁ ih₂ =>
    obtain ⟨h₁, h₂⟩ := Nat.add_eq_zero_iff.mp h0
    exact ⟨ih₁ hr.1 h₁, ih₂ hr.2 h₂⟩
  | alt first second ih₁ ih₂ =>
    obtain ⟨h₁, h₂⟩ := Nat.add_eq_zero_iff.mp h0
    exact ⟨ih₁ hr.1 h₁, ih₂ hr.2 h₂⟩
  | capture index body ih => exact absurd h0 (Nat.succ_ne_zero _)
  | loop body least most reluctant ih => exact ih hr h0
  | possessive => exact hr.elim
  | atomic => exact hr.elim
  | look => exact hr.elim
  | backref => exact hr.elim
  | anchor => exact hr.elim

theorem captureCount_of_isBare {r : Regex} (h : r.IsBare) : r.captureCount = 0 := by
  induction r with
  | empty | oneOf | anchor => rfl
  | seq first second ih₁ ih₂ | alt first second ih₁ ih₂ => rw [captureCount, ih₁ h.1, ih₂ h.2]
  | capture | backref => exact h.elim
  | loop body least most reluctant ih => exact ih h
  | possessive body least most nested ih => exact ih h
  | atomic body ih => exact ih h
  | look wanted body ih => exact ih h

theorem IsBare.nest {r : Regex} (h : r.IsBare) : r.nest.IsBare := by
  induction r with
  | empty | oneOf | anchor => trivial
  | seq first second ih₁ ih₂ | alt first second ih₁ ih₂ => exact ⟨ih₁ h.1, ih₂ h.2⟩
  | capture | backref => exact h.elim
  | loop body least most reluctant ih => exact ih h
  | possessive body least most nested ih => exact h
  | atomic body ih => exact ih h
  | look wanted body ih => exact ih h

theorem captureCount_nest (r : Regex) : r.nest.captureCount = r.captureCount := by
  induction r with
  | empty | oneOf | backref | anchor => rfl
  | seq first second ih₁ ih₂ | alt first second ih₁ ih₂ => rw [nest, captureCount, captureCount, ih₁, ih₂]
  | capture index body ih | loop body least most reluctant ih | atomic body ih | look wanted body ih =>
    rw [nest, captureCount, captureCount, ih]
  | possessive => rfl

/-! ### The search in a possessive loop -/

/-- The whole text that a place is in. -/
def Place.text (p : Place) : Text := p.behind.reverse ++ p.ahead

section Agree

variable {text : Text} {captures : List Edge} {f g : Onward} {s : Cursor} {p : Place}

/-- Whether a cursor is in a text, with some captures. -/
structure Cursor.Holds (s : Cursor) (text : Text) (captures : List Edge) : Prop where
  text : s.text = text
  captures : s.captures = captures

theorem Cursor.Holds.moveTo (hs : s.Holds text captures) (hp : p.text = text) : (s.moveTo p).Holds text captures :=
  ⟨hp, hs.captures⟩

theorem le_topRank {edges : List Edge} {e : Edge} (h : e ∈ edges) : e.rank ≤ topRank edges := by
  have hfold : ∀ (edges : List Edge) (n : Nat), n ≤ edges.foldl (fun n e => max n e.rank) n ∧
      ∀ e ∈ edges, e.rank ≤ edges.foldl (fun n e => max n e.rank) n := by
    intro edges
    induction edges with
    | nil => exact fun n => ⟨Nat.le_refl n, nofun⟩
    | cons e edges ih =>
      intro n
      obtain ⟨hle, hall⟩ := ih (max n e.rank)
      refine ⟨Nat.le_trans (Nat.le_max_left _ _) hle, List.forall_mem_cons.mpr ⟨?_, hall⟩⟩
      exact Nat.le_trans (Nat.le_max_right _ _) hle
  exact (hfold edges 0).2 e h

/-- Where nothing was captured, nothing is given back. -/
theorem giveBack_self (nested : Bool) (s : Cursor) : s.giveBack nested s.captures = s := by
  have hfilter : s.captures.filter (fun e => e.rank ≤ topRank s.captures) = s.captures := by
    rw [List.filter_eq_self]
    exact fun e he => decide_eq_true (le_topRank he)
  rw [Cursor.giveBack, hfilter, ite_self]

theorem giveBack_of_holds (nested : Bool) {t : Cursor} (ht : t.Holds text captures) (hs : s.Holds text captures) :
    t.giveBack nested s.captures = t := by
  rw [hs.captures, ← ht.captures, giveBack_self]

/-- Whether two searches come to the same, with the captures that they began with. -/
def Agree (text : Text) (captures : List Edge) (x y : Bool × Cursor) : Prop :=
  ∃ b t, x = (b, t) ∧ y = (b, t) ∧ t.Holds text captures

theorem Cursor.Holds.agree (hs : s.Holds text captures) (b : Bool) : Agree text captures (b, s) (b, s) :=
  ⟨b, s, rfl, rfl, hs⟩

/-- Whether two continuations agree. -/
def AgreeOnward (text : Text) (captures : List Edge) (f g : Onward) : Prop :=
  ∀ p s, p.text = text → s.Holds text captures → Agree text captures (f p s) (g p s)

/-- Whether two searches agree before continuations that agree. -/
def AgreeStep (text : Text) (captures : List Edge) (step step' : Place → Cursor → Onward → Bool × Cursor) : Prop :=
  ∀ f g, AgreeOnward text captures f g → AgreeOnward text captures (fun p s => step p s f) (fun p s => step' p s g)

theorem agree_arrive : AgreeOnward text captures arrive arrive := fun _ _ hp hs => (hs.moveTo hp).agree true

theorem agree_tryOn (h : AgreeOnward text captures f g) : AgreeOnward text captures (tryOn f) (tryOn g) := by
  intro p s hp hs
  obtain ⟨b, t, hf, hg, ht⟩ := h p (s.moveTo p) hp (hs.moveTo hp)
  rw [tryOn, tryOn, hf, hg]
  cases b with
  | true => exact ht.agree true
  | false => exact (ht.moveTo hp).agree false

theorem agree_tryPlaces (h : AgreeOnward text captures f g) (nested nested' : Bool) (next : Option Nat)
    {places : List Place} (hplaces : ∀ p ∈ places, p.text = text) (hs : s.Holds text captures) :
    Agree text captures (tryPlaces nested next f places s) (tryPlaces nested' next g places s) := by
  induction places generalizing s with
  | nil => exact hs.agree false
  | cons p places ih =>
    obtain ⟨hp, hplaces⟩ := List.forall_mem_cons.mp hplaces
    rw [tryPlaces, tryPlaces]
    split
    · obtain ⟨b, t, hf, hg, ht⟩ := h p (s.moveTo p) hp (hs.moveTo hp)
      rw [hf, hg]
      cases b with
      | true => exact ht.agree true
      | false =>
        simp only [giveBack_of_holds _ ht hs]
        exact ih hplaces ht
    · exact ih hplaces hs

theorem agree_tryBranch (h : AgreeOnward text captures f g) (nested nested' : Bool) (r : Regex) :
    AgreeOnward text captures (tryBranch nested r f) (tryBranch nested' r g) := by
  intro p s hp hs
  rw [tryBranch, tryBranch]
  split
  · exact hs.agree false
  · obtain ⟨b, t, hf, hg, ht⟩ := h p (s.moveTo p) hp (hs.moveTo hp)
    rw [hf, hg]
    cases b with
    | true => exact ht.agree true
    | false =>
      simp only [giveBack_of_holds _ ht hs]
      exact ht.agree false

section Rounds

variable {step step' : Place → Cursor → Onward → Bool × Cursor}

theorem agree_runTimes (hstep : AgreeStep text captures step step') (h : AgreeOnward text captures f g) (n : Nat) :
    AgreeOnward text captures (runTimes step n f) (runTimes step' n g) := by
  induction n with
  | zero => exact h
  | succ n ih => exact agree_tryOn (hstep _ _ ih)

theorem agree_runUpTo (hstep : AgreeStep text captures step step') (h : AgreeOnward text captures f g)
    (nested nested' reluctant : Bool) (n : Nat) :
    AgreeOnward text captures (runUpTo step nested reluctant f n) (runUpTo step' nested' reluctant g n) := by
  induction n with
  | zero => exact agree_tryOn h
  | succ n ih =>
    intro p s hp hs
    have hagain : AgreeOnward text captures
        (tryOn fun p s => step p s fun q t =>
          if q.ahead.length < p.ahead.length then runUpTo step nested reluctant f n q t else tryOn f q t)
        (tryOn fun p s => step' p s fun q t =>
          if q.ahead.length < p.ahead.length then runUpTo step' nested' reluctant g n q t else tryOn g q t) := by
      refine agree_tryOn fun p s hp hs => hstep _ _ (fun q t hq ht => ?_) p s hp hs
      split
      · exact ih q t hq ht
      · exact agree_tryOn h q t hq ht
    have hon := agree_tryOn h
    rw [runUpTo, runUpTo]
    simp only
    split
    · obtain ⟨b, t, hf, hg, ht⟩ := hon p s hp hs
      rw [hf, hg]
      cases b with
      | true => exact ht.agree true
      | false =>
        simp only [giveBack_of_holds _ ht hs]
        exact hagain p t hp ht
    · obtain ⟨b, t, hf, hg, ht⟩ := hagain p s hp hs
      rw [hf, hg]
      cases b with
      | true => exact ht.agree true
      | false => exact hon p _ hp ⟨ht.text, hs.captures⟩

end Rounds

section Holds

variable {round round' : Cursor → Bool × Cursor}

theorem agree_holdTimes (hround : ∀ s, s.Holds text captures → Agree text captures (round s) (round' s)) (n : Nat)
    (hs : s.Holds text captures) : Agree text captures (holdTimes round n s) (holdTimes round' n s) := by
  induction n generalizing s with
  | zero => exact hs.agree true
  | succ n ih =>
    obtain ⟨b, t, hf, hg, ht⟩ := hround s hs
    rw [holdTimes, holdTimes, hf, hg]
    cases b with
    | true => exact ih ht
    | false => exact ht.agree false

theorem agree_holdUpTo (hround : ∀ s, s.Holds text captures → Agree text captures (round s) (round' s)) (n : Nat)
    (hs : s.Holds text captures) :
    holdUpTo round n s = holdUpTo round' n s ∧ (holdUpTo round n s).Holds text captures := by
  induction n generalizing s with
  | zero => exact ⟨rfl, hs⟩
  | succ n ih =>
    obtain ⟨b, t, hf, hg, ht⟩ := hround s hs
    rw [holdUpTo, holdUpTo, hf, hg]
    cases b with
    | true =>
      simp only
      split
      · exact ih ht
      · exact ⟨rfl, ht⟩
    | false => exact ⟨rfl, ht.text, hs.captures⟩

theorem agree_holdAll (hround : ∀ s, s.Holds text captures → Agree text captures (round s) (round' s)) (least : Nat)
    (most : Option Nat) (hs : s.Holds text captures) :
    Agree text captures (holdAll round least most s) (holdAll round' least most s) := by
  obtain ⟨b, t, hf, hg, ht⟩ := agree_holdTimes hround least hs
  rw [holdAll, holdAll, hf, hg]
  cases b with
  | true =>
    obtain ⟨heq, hholds⟩ := agree_holdUpTo hround (rounds least most t.toPlace) ht
    simp only [← heq]
    exact hholds.agree true
  | false => exact ht.agree false

end Holds

theorem text_advance {c : Char} {q : Place} (h : p.advance = some (c, q)) : q.text = p.text := by
  unfold Place.advance at h
  split at h
  · cases h
  · next hahead =>
    obtain ⟨rfl, rfl⟩ := Prod.mk.inj (Option.some.inj h)
    simp [Place.text, hahead]

theorem text_stops {set : CharSet} {n : Nat} : ∀ q ∈ p.stops set n, q.text = p.text := by
  induction n generalizing p with
  | zero => simp [Place.stops]
  | succ n ih =>
    rw [Place.stops]
    split
    · next c q hadvance =>
      split
      · refine List.forall_mem_cons.mpr ⟨rfl, fun r hr => ?_⟩
        rw [ih r hr, text_advance hadvance]
      · simp
    · simp

theorem agree_runSet (h : AgreeOnward text captures f g) (set : CharSet) (least : Nat) (most : Option Nat)
    (nested nested' reluctant : Bool) (next : Option Nat) :
    AgreeOnward text captures (runSet set least most nested reluctant next f)
      (runSet set least most nested' reluctant next g) := by
  intro p s hp hs
  have hends : ∀ q ∈ (p.stops set (most.getD p.ahead.length)).drop least, q.text = text :=
    fun q hq => (text_stops q (List.mem_of_mem_drop hq)).trans hp
  rw [runSet, runSet]
  split
  · exact hs.agree false
  · simp only
    split
    · obtain ⟨b, t, hf, hg, ht⟩ := agree_tryPlaces h nested nested' none hends (hs.moveTo hp)
      rw [hf, hg]
      cases b with
      | true => exact ht.agree true
      | false =>
        refine (ht.moveTo ?_).agree false
        cases hlast : ((p.stops set (most.getD p.ahead.length)).drop least).getLast? with
        | none => exact hp
        | some q => exact hends q (List.mem_of_getLast? hlast)
    · refine agree_tryPlaces h nested nested' next ?_ (hs.moveTo hp)
      simpa using hends

theorem agree_holdSet (h : AgreeOnward text captures f g) (set : CharSet) (least : Nat) (most : Option Nat) :
    AgreeOnward text captures (holdSet set least most f) (holdSet set least most g) := by
  intro p s hp hs
  rw [holdSet, holdSet]
  split
  · exact hs.agree false
  · split
    · next q hq =>
      have hqtext : q.text = text := (text_stops q (List.mem_of_mem_drop (List.mem_of_getLast? hq))).trans hp
      exact h q _ hqtext (hs.moveTo hqtext)
    · exact (hs.moveTo hp).agree false

/-- The search of a bare expression is the same in another loop and outside of one, and leaves the captures alone. -/
theorem agree_run {r : Regex} (hr : r.IsBare) (nested nested' : Bool) (next : Option Nat)
    (h : AgreeOnward text captures f g) :
    AgreeOnward text captures (fun p s => run nested r next p s f) (fun p s => run nested' r next p s g) := by
  induction r generalizing nested nested' next f g with
  | empty => exact h
  | oneOf set =>
    intro p s hp hs
    simp only [run]
    split
    · next c q hadvance =>
      split
      · exact h q s ((text_advance hadvance).trans hp) hs
      · exact hs.agree false
    · exact hs.agree false
  | seq first second ih₁ ih₂ => exact ih₁ hr.1 nested nested' _ (ih₂ hr.2 nested nested' next h)
  | alt first second ih₁ ih₂ =>
    intro p s hp hs
    obtain ⟨b, t, hf, hg, ht⟩ := agree_tryBranch (ih₁ hr.1 nested nested' none h) nested nested' first p s hp hs
    simp only [run]
    rw [hf, hg]
    cases b with
    | true => exact ht.agree true
    | false =>
      simp only
      split
      · exact ih₂ hr.2 nested nested' none h p t hp ht
      · exact agree_tryBranch (ih₂ hr.2 nested nested' none h) nested nested' second p t hp ht
  | capture => exact hr.elim
  | backref => exact hr.elim
  | loop body least most reluctant ih =>
    intro p s hp hs
    have hbody : AgreeStep text captures (run true body none) (run true body none) :=
      fun f g h => ih hr true true none h
    simp only [run]
    split
    · exact agree_runSet h _ least most nested nested' reluctant next p s hp hs
    · refine agree_runTimes hbody (fun q t hq ht => ?_) least p (s.moveTo p) hp (hs.moveTo hp)
      exact agree_runUpTo hbody h nested nested' reluctant _ q t hq ht
  | possessive body least most inLoop ih =>
    intro p s hp hs
    simp only [run]
    split
    · exact agree_holdSet h _ least most p s hp hs
    · have hround : ∀ t : Cursor, t.Holds text captures → Agree text captures
          (run nested body none t.toPlace t arrive) (run nested' body none t.toPlace t arrive) :=
        fun t ht => ih hr nested nested' none agree_arrive t.toPlace t ht.text ht
      obtain ⟨b, t, hf, hg, ht⟩ := agree_holdAll hround least most (hs.moveTo hp)
      rw [hf, hg]
      cases b with
      | true => exact h t.toPlace t ht.text ht
      | false => exact (ht.moveTo hp).agree false
  | atomic body ih =>
    intro p s hp hs
    obtain ⟨b, t, hf, hg, ht⟩ := ih hr nested nested' none agree_arrive p (s.moveTo p) hp (hs.moveTo hp)
    simp only at hf hg
    simp only [run]
    rw [hf, hg]
    cases b with
    | true => exact h t.toPlace t ht.text ht
    | false => exact (ht.moveTo hp).agree false
  | look wanted body ih =>
    intro p s hp hs
    obtain ⟨b, t, hf, hg, ht⟩ := ih hr nested nested' none agree_arrive p (s.moveTo p) hp (hs.moveTo hp)
    simp only at hf hg
    simp only [run]
    rw [hf, hg]
    cases b with
    | true =>
      cases wanted with
      | true => exact h p t hp ht
      | false => exact ht.agree false
    | false =>
      cases wanted with
      | true => exact ht.agree false
      | false =>
        simp only [giveBack_of_holds _ ht hs]
        exact h p t hp ht
  | anchor place =>
    intro p s hp hs
    simp only [run]
    split
    · exact h p s hp hs
    · exact hs.agree false

end Agree

/-! ### The ways of bare expressions -/

theorem agree_hold {body : Regex} (h : body.IsBare) (least : Nat) (most : Option Nat) (nested nested' : Bool)
    (s : Cursor) : body.hold least most nested s = body.hold least most nested' s ∧
      ∀ t ∈ body.hold least most nested s, t.Holds s.text s.captures := by
  have hround : ∀ t : Cursor, t.Holds s.text s.captures → Agree s.text s.captures
      (run nested body none t.toPlace t arrive) (run nested' body none t.toPlace t arrive) :=
    fun t ht => agree_run h nested nested' none agree_arrive t.toPlace t ht.text ht
  have hs : s.Holds s.text s.captures := ⟨rfl, rfl⟩
  obtain ⟨b, t, hf, hg, ht⟩ := agree_holdAll hround least most hs
  rw [hold, hold, hf, hg]
  cases b with
  | true => exact ⟨rfl, fun u hu => Option.some.inj hu ▸ ht⟩
  | false => exact ⟨rfl, nofun⟩

/-- A bare expression stays in the text and leaves the captures alone. -/
theorem holds_of_mem_ways {r : Regex} (hr : r.IsBare) {s t : Cursor} (h : t ∈ r.ways s) :
    t.Holds s.text s.captures := by
  induction r generalizing s t with
  | empty =>
    have hts : t = s := by simpa [ways] using h
    exact hts ▸ ⟨rfl, rfl⟩
  | oneOf set =>
    obtain ⟨c, rest, hs, -, rfl⟩ := mem_ways_oneOf.mp h
    exact ⟨by simp [Place.text, Cursor.moveTo, hs], rfl⟩
  | seq first second ih₁ ih₂ =>
    obtain ⟨u, hu, ht⟩ := mem_ways_seq.mp h
    obtain ⟨htext, hcaptures⟩ := ih₁ hr.1 hu
    exact htext ▸ hcaptures ▸ ih₂ hr.2 ht
  | alt first second ih₁ ih₂ =>
    rw [ways, List.mem_append] at h
    rcases h with h | h
    · exact ih₁ hr.1 h
    · exact ih₂ hr.2 h
  | capture => exact hr.elim
  | backref => exact hr.elim
  | loop body least most reluctant ih =>
    obtain ⟨u, hu, ht⟩ := mem_ways_loop.mp h
    let Same : Cursor → Cursor → Prop := fun s t => t.Holds s.text s.captures
    have hrefl : ∀ s, Same s s := fun _ => ⟨rfl, rfl⟩
    have htrans : ∀ s t u, Same s t → Same t u → Same s u :=
      fun _ _ _ h₁ h₂ => ⟨h₂.text.trans h₁.text, h₂.captures.trans h₁.captures⟩
    have hstep : ∀ s t, t ∈ body.ways s → Same s t := fun _ _ => ih hr
    exact htrans s u t (waysTimes_relates hrefl htrans hstep least hu)
      (waysUpTo_relates hrefl htrans hstep reluctant _ ht)
  | possessive body least most nested =>
    rw [ways, Option.mem_toList] at h
    exact (@agree_hold body hr least most nested nested s).2 t h
  | atomic body ih =>
    rw [ways] at h
    exact ih hr (List.mem_of_mem_take h)
  | look wanted body ih =>
    rw [ways] at h
    cases hb : (body.ways s).head? with
    | none =>
      simp only [hb] at h
      cases wanted with
      | true => simp at h
      | false =>
        have hts : t = s := by simpa using h
        exact hts ▸ ⟨rfl, rfl⟩
    | some u =>
      simp only [hb] at h
      cases wanted with
      | true =>
        have hts : t = { s with captures := u.captures } := by simpa using h
        exact hts ▸ ⟨rfl, (ih hr (List.mem_of_mem_head? hb)).captures⟩
      | false => simp at h
  | anchor place =>
    rw [ways] at h
    split at h
    · exact List.mem_singleton.mp h ▸ ⟨rfl, rfl⟩
    · simp at h

/-- Whether the bodies of all possessive loops in an expression are bare. -/
def HoldsBare : Regex → Prop
  | empty => True
  | oneOf _ => True
  | seq first second => first.HoldsBare ∧ second.HoldsBare
  | alt first second => first.HoldsBare ∧ second.HoldsBare
  | capture _ body => body.HoldsBare
  | loop body _ _ _ => body.HoldsBare
  | possessive body _ _ _ => body.IsBare
  | atomic body => body.HoldsBare
  | look _ body => body.HoldsBare
  | backref _ _ => True
  | anchor _ => True

theorem IsBare.holdsBare {r : Regex} (h : r.IsBare) : r.HoldsBare := by
  induction r with
  | empty | oneOf | anchor => trivial
  | seq first second ih₁ ih₂ | alt first second ih₁ ih₂ => exact ⟨ih₁ h.1, ih₂ h.2⟩
  | capture | backref => exact h.elim
  | loop body least most reluctant ih => exact ih h
  | possessive => exact h
  | atomic body ih => exact ih h
  | look wanted body ih => exact ih h

theorem HoldsBare.nest {r : Regex} (h : r.HoldsBare) : r.nest.HoldsBare := by
  induction r with
  | empty | oneOf | backref | anchor => trivial
  | seq first second ih₁ ih₂ | alt first second ih₁ ih₂ => exact ⟨ih₁ h.1, ih₂ h.2⟩
  | capture index body ih | loop body least most reluctant ih | atomic body ih | look wanted body ih => exact ih h
  | possessive => exact h

/-- Standing in a loop changes nothing where possessive loops have no captures to give back. -/
theorem ways_nest {r : Regex} (h : r.HoldsBare) : r.nest.ways = r.ways := by
  induction r with
  | empty | oneOf | backref | anchor => rfl
  | seq first second ih₁ ih₂ | alt first second ih₁ ih₂ =>
    funext s
    rw [nest, ways, ways, ih₁ h.1, ih₂ h.2]
  | capture index body ih =>
    funext s
    rw [nest, ways, ways, ih h]
  | loop body least most reluctant ih =>
    funext s
    rw [nest, ways, ways, ih h]
  | possessive body least most nested =>
    funext s
    rw [nest, ways, ways, (agree_hold h least most true nested s).1]
  | atomic body ih =>
    funext s
    rw [nest, ways, ways, ih h]
  | look wanted body ih =>
    funext s
    rw [nest, ways, ways, ih h]

end Routing.Regex
