import Routing.Proofs.Regex.Building

/-!
# Texts without captures

An expression that opens no capture refers to none either (`free_of_read`), since it would be refused. A text without
captures stays one where another text without captures follows, even if an escape at its end takes digits of the other
one (`all_append_of_free`).
-/

namespace Routing.Regex

/-! ### Lexemes side by side -/

/-- The lexemes of two texts side by side, where the first one is free of captures. An escape at its end may take some
digits of the second one. -/
theorem all_append_of_free {t y : Text} (ht : Lexes t) (hfree : ∀ l ∈ Lexeme.all t, l.isFree = true) (hy : Follows y) :
    ∃ lexemes digits y', y = digits ++ y' ∧ (∀ c ∈ digits, c.isDigit = true) ∧
      Lexeme.all (t ++ y) = lexemes ++ Lexeme.all y' ∧ (∀ l ∈ lexemes, l.isFree = true) ∧ .broken ∉ lexemes ∧
      brackets lexemes = brackets (Lexeme.all t) := by
  induction hn : t.length using Nat.strongRecOn generalizing t with
  | _ n ih =>
    rcases ht.cases with rfl | ⟨l, r, hnext, hr⟩
    · exact ⟨[], [], y, rfl, nofun, rfl, nofun, nofun, by rw [all_nil]⟩
    · rw [Lexes, all_of_next hnext, List.mem_cons, not_or] at ht
      rw [all_of_next hnext, List.forall_mem_cons] at hfree
      rcases next_append hy hnext with hfound | ⟨rfl, hl, -, hmore, hkind⟩
      · obtain ⟨lexemes, digits, y', hdigits, hall, happend, hlexemes, hbroken, hbrackets⟩ :=
          ih r.length (hn ▸ length_next hnext) hr hfree.2 rfl
        refine ⟨l :: lexemes, digits, y', hdigits, hall, ?_, List.forall_mem_cons.mpr ⟨hfree.1, hlexemes⟩,
          List.not_mem_cons_of_ne_of_not_mem ht.1 hbroken, ?_⟩
        · rw [all_of_next hfound, happend, List.cons_append]
        · rw [all_of_next hnext, brackets_cons, brackets_cons, hbrackets]
      · rcases hkind with ⟨index, rfl⟩ | ⟨n, m, r', rfl, hfound⟩
        · cases hfree.1
        · obtain ⟨-, digits, hdigits, hy'⟩ := hmore _ _ hfound
          refine ⟨[.point m], digits, r', hy', hdigits, all_of_next hfound, by simp [Lexeme.isFree], by simp, ?_⟩
          rw [all_of_next hnext, all_nil]
          rfl

/-! ### References -/

theorem pos_of_numberEscape {d : Char} (hd : 48 < d.toNat) {t r : Text} {index : Nat}
    (h : numberEscape d t = some (.backref index, r)) : 0 < index := by
  have hone : 0 < decimalNat [d] := by
    simp only [decimalNat, List.foldl_cons, List.foldl_nil]
    omega
  have htwo : ∀ e, 0 < decimalNat [d, e] := by
    intro e
    simp only [decimalNat, List.foldl_cons, List.foldl_nil]
    omega
  unfold numberEscape at h
  split at h
  · split at h
    · split at h
      · simp only at h
        split at h <;> cases h
      · cases h
        exact htwo _
    · cases h
      exact hone
  · split at h <;> cases h
    · exact htwo _
    · exact hone
  · cases h
    exact hone

theorem pos_of_escapeLexeme {c : Char} {t r : Text} {index : Nat}
    (h : escapeLexeme c t = some (.backref index, r)) : 0 < index := by
  unfold escapeLexeme at h
  split at h
  · cases h
  · cases h
  · cases h
  · obtain ⟨_, -, he⟩ := Option.map_eq_some_iff.mp h
    cases he
  · split at h
    · cases h
    · next hzero =>
      split at h
      · next hdigit =>
        refine pos_of_numberEscape ?_ h
        have hdigits : 48 ≤ c.toNat := (Char.isDigit_iff_toNat.mp hdigit).1
        have hne : c.toNat ≠ '0'.toNat := fun heq => hzero (Char.toNat_inj.mp heq)
        exact Nat.lt_of_le_of_ne hdigits hne.symm
      · split at h <;> cases h

theorem not_backref_of_groupLexeme {t r : Text} {index : Nat} : groupLexeme t ≠ some (.backref index, r) := by
  intro h
  unfold groupLexeme at h
  split at h
  case h_1 | h_2 | h_3 | h_4 => cases h
  case h_5 =>
    obtain ⟨_, -, he⟩ := Option.map_eq_some_iff.mp h
    cases he
  case h_6 | h_7 =>
    split at h
    · split at h <;> cases h
    · cases h
  case h_8 =>
    simp only [flagsLexeme] at h
    split at h
    · split at h <;> cases h
    · split at h <;> cases h
    · split at h
      · split at h <;> cases h
      · cases h
    · cases h

/-- A reference is to some capture. -/
theorem pos_of_backref {t r : Text} {index : Nat} (h : Lexeme.next t = some (.backref index, r)) : 0 < index := by
  unfold Lexeme.next at h
  split at h
  case h_3 => exact pos_of_escapeLexeme h
  case h_7 | h_8 =>
    obtain ⟨_, -, he⟩ := Option.map_eq_some_iff.mp h
    cases he
  case h_9 => exact absurd h not_backref_of_groupLexeme
  case h_16 =>
    unfold braceLexeme at h
    split at h <;> cases h
  all_goals cases h

theorem pos_of_mem_all {t : Text} {index : Nat} (h : .backref index ∈ Lexeme.all t) : 0 < index := by
  induction hn : t.length using Nat.strongRecOn generalizing t with
  | _ n ih =>
    cases t with
    | nil =>
      rw [all_nil] at h
      cases h
    | cons c t =>
      cases hnext : Lexeme.next (c :: t) with
      | none =>
        rw [all_of_next_eq_none (List.cons_ne_nil c t) hnext, List.mem_singleton] at h
        cases h
      | some found =>
        rw [all_of_next hnext] at h
        rcases List.mem_cons.mp h with hl | h
        · exact pos_of_backref (hnext.trans (by rw [hl]))
        · exact ih _ (hn ▸ length_next hnext) h rfl

namespace Reading

/-- A lexeme that is free of captures opens none. -/
theorem captures_of_step {r q : Reading} {l : Lexeme} (hl : l.isFree = true) (h : r.step l = .ok q) :
    q.captures = r.captures ∧ q.names = r.names := by
  cases l with
  | point | set | dot | caret | dollar | anchor | bar | comment =>
    rw [← Except.ok.inj h]
    exact ⟨rfl, rfl⟩
  | opening kind =>
    cases kind with
    | capturing name => cases hl
    | _ =>
      rw [← Except.ok.inj h]
      exact ⟨rfl, rfl⟩
  | backref | namedRef => cases hl
  | closing =>
    obtain ⟨up, others, -, rfl⟩ := leave_eq_some.mp (wellFormed_eq_ok.mp h)
    exact ⟨rfl, rfl⟩
  | count least most manner =>
    obtain ⟨-, regex, others, -, rfl⟩ := count_eq_ok.mp h
    exact ⟨rfl, rfl⟩
  | flags on =>
    obtain ⟨-, rfl⟩ := flags_eq_ok.mp h
    exact ⟨rfl, rfl⟩
  | broken => cases h

theorem captures_of_steps {r q : Reading} {lexemes : List Lexeme} (hfree : ∀ l ∈ lexemes, l.isFree = true)
    (h : r.steps lexemes = .ok q) : q.captures = r.captures ∧ q.names = r.names := by
  induction lexemes generalizing r with
  | nil =>
    rw [steps_nil, Except.ok.injEq] at h
    exact h ▸ ⟨rfl, rfl⟩
  | cons l lexemes ih =>
    obtain ⟨s, hs, h⟩ := steps_cons.mp h
    obtain ⟨hl, hlexemes⟩ := List.forall_mem_cons.mp hfree
    obtain ⟨hcaptures, hnames⟩ := captures_of_step hl hs
    obtain ⟨hcaptures', hnames'⟩ := ih hlexemes h
    exact ⟨hcaptures'.trans hcaptures, hnames'.trans hnames⟩

/-- Where no capture was opened, a lexeme that is read and opens none refers to none. -/
theorem free_of_step {r q : Reading} {l : Lexeme} (h : r.step l = .ok q) (hcaptures : r.captures = 0)
    (hnames : r.names = []) (hopen : ∀ name, l ≠ .opening (.capturing name))
    (hpos : ∀ index, l = .backref index → 0 < index) :
    l.isFree = true := by
  cases l with
  | opening kind =>
    cases kind with
    | capturing name => exact absurd rfl (hopen name)
    | _ => rfl
  | backref index =>
    have hrefer := wellFormed_eq_ok.mp h
    unfold refer at hrefer
    split at hrefer
    · next hle =>
      have := hpos index rfl
      omega
    · cases hrefer
  | namedRef name =>
    have hlookup := wellFormed_eq_ok.mp h
    rw [hnames] at hlookup
    cases hlookup
  | _ => rfl

theorem free_of_steps {r q : Reading} {lexemes : List Lexeme} (h : r.steps lexemes = .ok q) (hcaptures : r.captures = 0)
    (hnames : r.names = []) (hopen : ∀ name, .opening (.capturing name) ∉ lexemes)
    (hpos : ∀ index, .backref index ∈ lexemes → 0 < index) : ∀ l ∈ lexemes, l.isFree = true := by
  induction lexemes generalizing r with
  | nil => nofun
  | cons l lexemes ih =>
    obtain ⟨s, hs, h⟩ := steps_cons.mp h
    have hl : l.isFree = true := by
      refine free_of_step hs hcaptures hnames ?_ ?_
      · rintro name rfl
        exact hopen name List.mem_cons_self
      · rintro index rfl
        exact hpos index List.mem_cons_self
    obtain ⟨hc, hn⟩ := captures_of_step hl hs
    refine List.forall_mem_cons.mpr ⟨hl, ih h (hc.trans hcaptures) (hn.trans hnames) ?_ ?_⟩
    · exact fun name hmem => hopen name (List.mem_cons_of_mem _ hmem)
    · exact fun index hmem => hpos index (List.mem_cons_of_mem _ hmem)

end Reading

/-- An expression that opens no capture refers to none. -/
theorem free_of_read {t : Text} {e : Regex} (he : Regex.read t = .ok e)
    (h : ∀ name, .opening (.capturing name) ∉ Lexeme.all t) : ∀ l ∈ Lexeme.all t, l.isFree = true := by
  obtain ⟨q, hq, -⟩ := read_eq_ok.mp he
  exact Reading.free_of_steps hq rfl rfl h fun _ => pos_of_mem_all

/-! ### Inside of a parenthesis -/

/-- The parentheses among some brackets. -/
def parens (brackets : List Bracket) : List Bracket := brackets.filter (· != .bar)

theorem parens_append (a b : List Bracket) : parens (a ++ b) = parens a ++ parens b := List.filter_append a b

namespace Reading

/-- A reading that is further in than another one stays so after the same lexeme. -/
theorem outer_lt_of_step {r s r' s' : Reading} {l : Lexeme} (h : r.step l = .ok s) (h' : r'.step l = .ok s')
    (hdepth : r.outer.length < r'.outer.length) : s.outer.length < s'.outer.length := by
  obtain ⟨more, hmore⟩ := Nat.exists_eq_add_of_lt hdepth
  have hadd := depthAfter_add (depth_of_step h) (more + 1)
  have hsame : r.outer.length + 1 + (more + 1) = r'.outer.length + 1 := by omega
  rw [hsame, depth_of_step h', Option.some.injEq] at hadd
  omega

/-- Lexemes that can be read by themselves and in a parenthesis turn on no flags for the whole expression. -/
theorem bare_of_steps {r r' q q' : Reading} {lexemes : List Lexeme} (h : r.steps lexemes = .ok q)
    (h' : r'.steps lexemes = .ok q') (hdepth : r.outer.length < r'.outer.length)
    (hfree : ∀ l ∈ lexemes, l.isFree = true) : ∀ l ∈ lexemes, l.isBare = true := by
  induction lexemes generalizing r r' with
  | nil => nofun
  | cons l lexemes ih =>
    obtain ⟨s, hs, h⟩ := steps_cons.mp h
    obtain ⟨s', hs', h'⟩ := steps_cons.mp h'
    obtain ⟨hl, hlexemes⟩ := List.forall_mem_cons.mp hfree
    refine List.forall_mem_cons.mpr ⟨?_, ih h h' (outer_lt_of_step hs hs' hdepth) hlexemes⟩
    cases l with
    | flags on =>
      obtain ⟨⟨houter, -⟩, -⟩ := flags_eq_ok.mp hs'
      rw [houter] at hdepth
      cases hdepth
    | opening kind =>
      cases kind with
      | capturing => cases hl
      | _ => rfl
    | backref | namedRef => cases hl
    | _ => rfl

/-- The state with more parentheses around those that are open. -/
def below (r : Reading) (frames : List Frame) : Reading := { r with outer := r.outer ++ frames }

theorem parens_of_step {r q : Reading} {l : Lexeme} (h : r.step l = .ok q) (lexemes : List Lexeme) :
    depthAfter r.outer.length (parens (brackets (l :: lexemes))) =
      depthAfter q.outer.length (parens (brackets lexemes)) := by
  have hdepth := depth_of_step h
  rw [brackets_cons, parens_append, depthAfter_append]
  cases hl : l.bracket? with
  | none =>
    rw [hl, Option.toList_none, depthAfter, Option.some.injEq, Nat.add_right_cancel_iff] at hdepth
    rw [← hdepth]
    rfl
  | some bracket =>
    rw [hl] at hdepth
    cases bracket with
    | opening =>
      rw [← Nat.succ_injective (Option.some.inj hdepth)]
      rfl
    | closing =>
      have houter : r.outer.length = q.outer.length + 1 := Option.some.inj hdepth
      rw [houter]
      rfl
    | bar =>
      rw [← Nat.succ_injective (Option.some.inj hdepth)]
      rfl

/-- The number of open frames follows the parentheses. -/
theorem parens_of_steps {r q : Reading} {lexemes : List Lexeme} (h : r.steps lexemes = .ok q) :
    depthAfter r.outer.length (parens (brackets lexemes)) = some q.outer.length := by
  induction lexemes generalizing r with
  | nil =>
    rw [steps_nil, Except.ok.injEq] at h
    rw [h]
    rfl
  | cons l lexemes ih =>
    obtain ⟨s, hs, h⟩ := steps_cons.mp h
    rw [parens_of_step hs]
    exact ih h

/-- What is around does not matter to a lexeme that closes nothing of it. -/
theorem step_of_below {r q : Reading} {frames : List Frame} {l : Lexeme} (hl : l.isFree = true)
    (hclosing : l = .closing → r.outer ≠ []) (h : (r.below frames).step l = .ok q) :
    ∃ q', r.step l = .ok q' ∧ q = q'.below frames := by
  cases l with
  | point | set | dot | caret | dollar | anchor | bar | comment => exact ⟨_, rfl, (Except.ok.inj h).symm⟩
  | opening kind =>
    cases kind with
    | capturing => cases hl
    | _ => exact ⟨_, rfl, (Except.ok.inj h).symm⟩
  | backref | namedRef => cases hl
  | closing =>
    obtain ⟨up, others, houter, rfl⟩ := leave_eq_some.mp (wellFormed_eq_ok.mp h)
    obtain ⟨up', others', houter'⟩ := List.exists_cons_of_ne_nil (hclosing rfl)
    simp only [below, houter', List.cons_append, List.cons.injEq] at houter
    obtain ⟨rfl, rfl⟩ := houter
    exact ⟨_, wellFormed_eq_ok.mpr (leave_eq_some.mpr ⟨up', others', houter', rfl⟩), rfl⟩
  | count least most manner =>
    obtain ⟨hfits, regex, others, hitems, rfl⟩ := count_eq_ok.mp h
    exact ⟨_, count_eq_ok.mpr ⟨hfits, regex, others, hitems, rfl⟩, rfl⟩
  | flags on =>
    obtain ⟨⟨houter, hfirst⟩, rfl⟩ := flags_eq_ok.mp h
    exact ⟨_, flags_eq_ok.mpr ⟨⟨(List.append_eq_nil_iff.mp houter).1, hfirst⟩, rfl⟩, rfl⟩
  | broken => cases h

/-- What is around does not matter to lexemes whose parentheses match. -/
theorem steps_of_below {r q : Reading} {frames : List Frame} {lexemes : List Lexeme} {after : Nat}
    (hfree : ∀ l ∈ lexemes, l.isFree = true)
    (hd : depthAfter r.outer.length (parens (brackets lexemes)) = some after)
    (h : (r.below frames).steps lexemes = .ok q) :
    ∃ q', r.steps lexemes = .ok q' ∧ q = q'.below frames := by
  induction lexemes generalizing r with
  | nil =>
    rw [steps_nil, Except.ok.injEq] at h
    exact ⟨r, rfl, h.symm⟩
  | cons l lexemes ih =>
    obtain ⟨s, hs, h⟩ := steps_cons.mp h
    obtain ⟨hl, hlexemes⟩ := List.forall_mem_cons.mp hfree
    have hclosing : l = .closing → r.outer ≠ [] := by
      rintro rfl houter
      rw [houter] at hd
      cases hd
    obtain ⟨s', hs', rfl⟩ := step_of_below hl hclosing hs
    obtain ⟨q', hq', hq⟩ := ih hlexemes ((parens_of_step hs' lexemes).symm.trans hd) h
    exact ⟨q', steps_cons.mpr ⟨s', hs', hq'⟩, hq⟩

end Reading

end Routing.Regex
