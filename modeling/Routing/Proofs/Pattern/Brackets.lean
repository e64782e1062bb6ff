import Routing.Proofs.Pattern.Expression

/-!
# The brackets of a rule

Where every capture of a rule is an expression by itself, the parentheses in the text of the rule match, and no bar is
outside of them (`depthAfter_regexOf`): a bar can only come from a capture, and captures are in parentheses. Two texts
next to each other are two texts of lexemes, since at most one capture is written without parentheses of its own.
-/

namespace Routing.Pattern

open Regex

/-! ### Levels -/

/-- Whether some brackets lead back to the depth that they start at, and have a bar at that depth only where they
stand inside of a parenthesis. -/
def Level (inside : Bool) (brackets : List Bracket) : Prop :=
  ∀ depth, (inside = true → 0 < depth) → depthAfter depth brackets = some depth

section Level

variable {inside other : Bool} {a b : List Bracket}

theorem level_nil : Level inside [] := fun _ _ => rfl

theorem Level.append (ha : Level inside a) (hb : Level inside b) : Level inside (a ++ b) := by
  intro depth h
  rw [depthAfter_append, ha depth h]
  exact hb depth h

/-- A pair of parentheses around brackets. -/
theorem Level.enclosed (h : Level true a) : Level inside (.opening :: a ++ [.closing]) := by
  intro depth _
  rw [List.cons_append, depthAfter, depthAfter_append, h (depth + 1) fun _ => Nat.succ_pos depth]
  rfl

theorem Level.inner (h : Level inside a) : Level true a := fun depth hdepth => h depth fun _ => hdepth rfl

theorem level_of_depthAfter (h : depthAfter 1 a = some 1) : Level true a := by
  intro depth hdepth
  have := depthAfter_add h (depth - 1)
  have hone : 1 + (depth - 1) = depth := by
    have := hdepth rfl
    omega
  rwa [hone] at this

end Level

/-! ### What may follow a capture -/

theorem follows_cons {c : Char} (h : c.isDigit = false) (hc : c ∉ ['?', '+', ',', '\x7d']) (y : Text) :
    Follows (c :: y) :=
  (separate_cons h hc y).toFollows

theorem follows_escape {y : Text} (hy : Follows y) (t : Text) : Follows (escape t ++ y) := by
  refine ⟨(mannerless_escape t).append hy.manner, ?_⟩
  induction t with
  | nil => exact hy.brace
  | cons c t ih =>
    by_cases hc : c ∈ specials
    · simp [escape, hc]
    · have hcons : escape (c :: t) = c :: escape t := by simp [escape, hc]
      rw [hcons, List.cons_append, List.dropWhile_cons]
      split
      · exact ih
      · have hbrace : c ≠ '\x7d' := by
          rintro rfl
          exact hc (by decide)
        simpa using hbrace

/-- Tokens without variables may follow a capture. -/
theorem follows_regexOf {ts : List Token} {y : Text} (h : namesOf ts = []) (hy : Follows y) (inside : Bool) :
    Follows (regexOf inside ts ++ y) := by
  induction ts using tokens_induction with
  | nil => simpa [regexOf] using hy
  | literal text rest ih =>
    rw [regexOf, List.append_assoc]
    exact follows_escape (ih (by simpa [namesOf, Token.names] using h)) text
  | var name capture rest ih => simp [namesOf, Token.names] at h
  | group suffix binds raw children rest ihc ih =>
    rw [regexOf]
    split <;> exact follows_cons (by decide) (by decide) _

/-! ### The brackets of the parts of a rule -/

/-- Whether a text in front of another one adds brackets that are level, and leaves the lexemes of the other one. -/
def Adds (inside : Bool) (t y : Text) : Prop :=
  ∃ bs, Level inside bs ∧ brackets (Lexeme.all (t ++ y)) = bs ++ brackets (Lexeme.all y) ∧ Lexes y

theorem adds_nil {y : Text} (inside : Bool) (h : Lexes y) : Adds inside [] y := ⟨[], level_nil, rfl, h⟩

theorem Adds.append {inside : Bool} {t u y : Text} (ht : Lexes (t ++ (u ++ y)) → Adds inside t (u ++ y))
    (hu : Lexes (u ++ y) → Adds inside u y) (h : Lexes (t ++ (u ++ y))) : Adds inside (t ++ u) y := by
  obtain ⟨a, ha, hat, hl⟩ := ht h
  obtain ⟨b, hb, hbt, hy⟩ := hu hl
  exact ⟨a ++ b, ha.append hb, by rw [List.append_assoc, hat, hbt, List.append_assoc], hy⟩

/-- A lexeme that is no bracket. -/
theorem adds_of_next {t y : Text} {l : Lexeme} (inside : Bool) (hnext : Lexeme.next (t ++ y) = some (l, y))
    (hl : l.bracket? = none) (h : Lexes (t ++ y)) : Adds inside t y := by
  have hall := all_of_next hnext
  refine ⟨[], level_nil, ?_, ?_⟩
  · rw [hall, brackets, List.filterMap_cons, hl]
    rfl
  · rw [Lexes, hall] at h
    intro hy
    exact h (List.mem_cons_of_mem _ hy)

theorem adds_escape {t y : Text} (inside : Bool) (h : Lexes (escape t ++ y)) : Adds inside (escape t) y := by
  induction t with
  | nil => exact adds_nil inside h
  | cons c t ih =>
    have hcons : escape (c :: t) = escape [c] ++ escape t := by simp [escape]
    rw [hcons, List.append_assoc] at h
    rw [hcons]
    refine Adds.append (fun h => ?_) ih h
    by_cases hc : c ∈ specials
    · have hone : escape [c] = ['\\', c] := by simp [escape, hc]
      rw [hone] at h ⊢
      exact adds_of_next inside (next_of_special hc _) rfl h
    · have hone : escape [c] = [c] := by simp [escape, hc]
      rw [hone] at h ⊢
      exact adds_of_next inside (next_of_plain hc _) rfl h

theorem Adds.inner {inside : Bool} {t y : Text} (h : Adds inside t y) : Adds true t y := by
  obtain ⟨bs, hbs, hrest⟩ := h
  exact ⟨bs, hbs.inner, hrest⟩

/-- A parenthesis around a text. -/
theorem Adds.around {inside : Bool} {opened t y : Text} {kind : Opening}
    (hnext : Lexeme.next (opened ++ t ++ [')'] ++ y) = some (.opening kind, t ++ ')' :: y))
    (ht : Lexes (t ++ ')' :: y) → Adds true t (')' :: y)) (h : Lexes (opened ++ t ++ [')'] ++ y)) :
    Adds inside (opened ++ t ++ [')']) y := by
  have hall := all_of_next hnext
  have hclose : Lexeme.all (')' :: y) = .closing :: Lexeme.all y := all_of_next rfl
  rw [Lexes, hall] at h
  obtain ⟨bs, hbs, hbrackets, hl⟩ := ht fun hy => h (List.mem_cons_of_mem _ hy)
  rw [Lexes, hclose] at hl
  refine ⟨.opening :: bs ++ [.closing], hbs.enclosed, ?_, fun hy => hl (List.mem_cons_of_mem _ hy)⟩
  have hopening : ∀ lexemes, brackets (.opening kind :: lexemes) = .opening :: brackets lexemes := fun _ => rfl
  rw [hall, hopening, hbrackets, hclose, List.append_assoc]
  rfl

theorem adds_enclosed {inside : Bool} {t y : Text} (hm : Mannerless t)
    (ht : Lexes (t ++ ')' :: y) → Adds true t (')' :: y)) (h : Lexes ('(' :: t ++ [')'] ++ y)) :
    Adds inside ('(' :: t ++ [')']) y := by
  refine @Adds.around inside ['('] t y (.capturing none) ?_ ht h
  rw [List.append_assoc]
  exact next_parenthesis (hm.append (mannerless_cons (by decide) y)).1

theorem adds_part {inside : Bool} {t y : Text} (ht : Lexes (t ++ ')' :: y) → Adds true t (')' :: y))
    (h : Lexes (part t ++ y)) : Adds inside (part t) y := by
  refine @Adds.around inside ['(', '?', ':'] t y .plain ?_ ht h
  simp [Lexeme.next, groupLexeme]

/-- A capture that is an expression by itself. -/
theorem adds_capture {c y : Text} {e : Regex} (hc : Regex.read c = .ok e) (hy : Follows y) (h : Lexes (c ++ y)) :
    Adds true c y := by
  obtain ⟨hlexes, hdepth⟩ := brackets_of_read hc
  obtain ⟨hbrackets, hrest⟩ := brackets_all_append hlexes hy h
  exact ⟨_, level_of_depthAfter hdepth, hbrackets, hrest⟩

/-- An expression starts with no count. -/
theorem mannerless_of_read {c : Text} {e : Regex} (hc : Regex.read c = .ok e) : Mannerless c := by
  obtain ⟨r, hsteps, -⟩ := read_eq_ok.mp hc
  have hcount : ∀ {t rest : Text} {l : Lexeme}, Lexeme.next t = some (l, rest) →
      Reading.start.step l = .error .malformed →
      c ≠ t := by
    rintro t rest l hnext hstep rfl
    rw [all_of_next hnext] at hsteps
    obtain ⟨q, hq, -⟩ := Reading.steps_cons.mp hsteps
    rw [hstep] at hq
    cases hq
  cases c with
  | nil => exact mannerless_nil
  | cons c rest =>
    refine mannerless_cons ⟨?_, ?_⟩ rest
    · rintro rfl
      exact hcount rfl rfl rfl
    · rintro rfl
      exact hcount rfl rfl rfl

theorem mannerless_of_valid {ts : List Token} (h : ∀ c ∈ capturesOf ts, ∃ e, Regex.read c = .ok e) (inside : Bool) :
    Mannerless (regexOf inside ts) :=
  mannerless_regexOf (fun c hc => mannerless_of_read (h c hc).choose_spec) inside

/-! ### The brackets of a rule -/

theorem adds_regexOf {ts : List Token} {inside : Bool} {y : Text}
    (hvalid : ∀ c ∈ capturesOf ts, ∃ e, Regex.read c = .ok e)
    (hone : if inside then (namesOf ts).length ≤ 1 else OneEach ts) (hy : Follows y)
    (h : Lexes (regexOf inside ts ++ y)) : Adds inside (regexOf inside ts) y := by
  induction ts using tokens_induction generalizing inside y with
  | nil =>
    rw [regexOf] at h ⊢
    exact adds_nil inside h
  | literal text rest ih =>
    rw [regexOf] at h ⊢
    rw [List.append_assoc] at h
    refine Adds.append (adds_escape inside) (ih (by simpa [capturesOf] using hvalid) ?_ hy) h
    simpa [namesOf, Token.names, OneEach] using hone
  | var name capture rest ih =>
    simp only [capturesOf, List.forall_mem_cons] at hvalid
    obtain ⟨⟨e, he⟩, hvalid⟩ := hvalid
    rw [regexOf] at h ⊢
    rw [List.append_assoc] at h
    cases inside with
    | true =>
      simp only [if_true, namesOf, Token.names, List.length_append, List.length_singleton] at hone
      -- no other variable is captured after it, so what follows is no digit and no count
      have hnames : namesOf rest = [] := List.eq_nil_of_length_eq_zero (by omega)
      refine Adds.append (adds_capture he (follows_regexOf hnames hy true)) (ih hvalid ?_ hy) h
      simp [hnames]
    | false =>
      simp only [Bool.false_eq_true, if_false] at h ⊢
      refine Adds.append (adds_enclosed (mannerless_of_read he) ?_) (ih hvalid (by simpa [OneEach] using hone) hy) h
      exact adds_capture he (follows_cons (by decide) (by decide) _)
  | group suffix binds raw children rest ihc ih =>
    simp only [capturesOf, List.forall_mem_append] at hvalid
    obtain ⟨hchildren, hrest⟩ := hvalid
    have hinner : ∀ {y : Text}, Lexes (regexOf (inside || suffix.repeats) children ++ ')' :: y) →
        Adds true (regexOf (inside || suffix.repeats) children) (')' :: y) := by
      intro y h
      refine (ihc hchildren ?_ (follows_cons (by decide) (by decide) _) h).inner
      cases inside with
      | true =>
        simp only [if_true, namesOf, Token.names, List.length_append] at hone
        simp only [Bool.true_or, if_true]
        omega
      | false =>
        simp only [Bool.false_eq_true, if_false, OneEach] at hone
        exact hone.1
    have hrun : ∀ {y : Text} (inside' : Bool), Mannerless y →
        Lexes (part (regexOf (inside || suffix.repeats) children) ++ [suffix.symbol] ++ y) →
        Adds inside' (part (regexOf (inside || suffix.repeats) children) ++ [suffix.symbol]) y := by
      intro y inside' hy h
      rw [List.append_assoc] at h
      exact Adds.append (adds_part hinner) (adds_of_next inside' (next_symbol suffix hy) rfl) h
    have hnext : Lexes (regexOf inside rest ++ y) → Adds inside (regexOf inside rest) y := by
      refine ih hrest ?_ hy
      cases inside with
      | true =>
        simp only [if_true, namesOf, Token.names, List.length_append] at hone ⊢
        omega
      | false =>
        simp only [Bool.false_eq_true, if_false, OneEach] at hone ⊢
        exact hone.2
    have hm' : Mannerless (regexOf inside rest ++ y) := (mannerless_of_valid hrest inside).append hy.manner
    rw [regexOf] at h ⊢
    rw [List.append_assoc] at h
    refine Adds.append (fun h => ?_) hnext h
    -- a run has parentheses of its own around those of the group
    split at h
    · next hcaptured =>
      rw [if_pos hcaptured]
      exact adds_enclosed (mannerless_cons (by decide) _) (hrun true (mannerless_cons (by decide) _)) h
    · next hcaptured =>
      rw [if_neg hcaptured]
      exact hrun inside hm' h

/-- The brackets of a rule whose text is an expression. -/
theorem depthAfter_regexOf {ts : List Token} {e : Regex} (hvalid : ∀ c ∈ capturesOf ts, ∃ e, Regex.read c = .ok e)
    (hone : OneEach ts) (he : Regex.read (regexOf false ts) = .ok e) :
    depthAfter 0 (brackets (Lexeme.all (regexOf false ts))) = some 0 := by
  have hlexes := (brackets_of_read he).1
  rw [← List.append_nil (regexOf false ts)] at hlexes
  obtain ⟨bs, hbs, hbrackets, -⟩ := @adds_regexOf ts false [] hvalid hone separate_nil.toFollows hlexes
  rw [List.append_nil, all_nil] at hbrackets
  rw [hbrackets, brackets, List.filterMap_nil, List.append_nil]
  exact hbs 0 fun h => absurd h Bool.false_ne_true

end Routing.Pattern
