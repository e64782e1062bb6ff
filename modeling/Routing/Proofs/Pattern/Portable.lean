import Routing.Proofs.Pattern.Brackets
import Routing.Proofs.Regex.Portable

/-!
# Patterns of portable captures

The text of a rule is an expression where every capture is one that can be read anywhere (`exists_read_of_portable`),
and so is that of its paths. A rule puts parentheses around captures and groups only, and what it writes itself can be
read anywhere. A capture without parentheses of its own is the only one in its group, so no other capture goes on with
it.
-/

namespace Routing.Pattern

open Regex

theorem isPortable_defaultCapture {delimiter : Text} (h : delimiter ≠ []) : IsPortable (defaultCapture delimiter) := by
  refine ⟨⟨_, (reads_defaultCapture 0 h).apart.read⟩, ?_⟩
  rw [all_defaultCapture h]
  simp [Lexeme.isPortable]

section Completes

variable {outer : List Frame} {t y : Text}

theorem completes_escape (h : Completes outer y) (t : Text) : Completes outer (escape t ++ y) := by
  induction t with
  | nil => exact h
  | cons c t ih =>
    by_cases hc : c ∈ specials
    · exact ih.point (n := c.toNat) (by simpa [escape, hc] using next_of_special hc (escape t ++ y))
    · exact ih.point (n := c.toNat) (by simpa [escape, hc] using next_of_plain hc (escape t ++ y))

theorem completes_enclosed (hm : Mannerless t) (h : ∀ frame, Completes (frame :: outer) (t ++ ')' :: y)) :
    Completes outer ('(' :: t ++ [')'] ++ y) :=
  .opening h (next_enclosed hm y) (Or.inr rfl)

theorem countFits_suffix (suffix : Suffix) : Reading.CountFits suffix.least suffix.most := by
  cases suffix <;> simp [Reading.CountFits, countLimit, Suffix.least, Suffix.most]

/-- A group, if what is in it can be read before the parenthesis that closes it. -/
theorem completes_group (suffix : Suffix) (hy : Mannerless y) (h : Completes outer y)
    (ht : ∀ frame {u : Text}, Completes (frame :: outer) (')' :: u) → Completes (frame :: outer) (t ++ ')' :: u)) :
    Completes outer (part t ++ [suffix.symbol] ++ y) :=
  .opening (fun frame => ht frame (h.closing_counted (countFits_suffix suffix) (next_symbol suffix hy)))
    (next_group t suffix y) (Or.inl rfl)

end Completes

/-- The text of some tokens, before a text that completes it. -/
theorem completes_regexOf {ts : List Token} {inside : Bool} {y : Text} {outer : List Frame}
    (hportable : ∀ c ∈ capturesOf ts, IsPortable c)
    (hone : if inside then (namesOf ts).length ≤ 1 else OneEach ts) (hy : Follows y) (h : Completes outer y) :
    Completes outer (regexOf inside ts ++ y) := by
  induction ts using tokens_induction generalizing inside y outer with
  | nil =>
    rw [regexOf]
    exact h
  | literal text rest ih =>
    rw [regexOf, List.append_assoc]
    refine completes_escape (ih (by simpa [capturesOf] using hportable) ?_ hy h) text
    simpa [namesOf, Token.names, OneEach] using hone
  | var name c rest ih =>
    rw [capturesOf, List.forall_mem_cons] at hportable
    rw [regexOf, List.append_assoc]
    cases inside with
    | true =>
      simp only [if_true, namesOf, Token.names, List.length_append, List.length_singleton] at hone
      -- no other variable is captured after it, so what follows is no count
      have hnames : namesOf rest = [] := List.eq_nil_of_length_eq_zero (by omega)
      exact (ih hportable.2 (by simp [hnames]) hy h).capture hportable.1 (follows_regexOf hnames hy true)
    | false =>
      have hm := mannerless_of_read hportable.1.valid.choose_spec
      have hrest : Completes outer (regexOf false rest ++ y) :=
        ih hportable.2 (by simpa [OneEach] using hone) hy h
      have hfollows := follows_cons (c := ')') (by decide) (by decide) (regexOf false rest ++ y)
      exact completes_enclosed hm fun frame => hrest.closing.capture hportable.1 hfollows
  | group suffix binds raw children rest ihc ih =>
    rw [capturesOf, List.forall_mem_append] at hportable
    obtain ⟨hchildren, hrest⟩ := hportable
    have hinner : ∀ {outer : List Frame} {u : Text}, Completes outer (')' :: u) →
        Completes outer (regexOf (inside || suffix.repeats) children ++ ')' :: u) := by
      intro outer u hu
      refine ihc hchildren ?_ (follows_cons (by decide) (by decide) u) hu
      cases inside with
      | true =>
        simp only [if_true, namesOf, Token.names, List.length_append] at hone
        simp only [Bool.true_or, if_true]
        omega
      | false =>
        simp only [Bool.false_eq_true, if_false, OneEach] at hone
        exact hone.1
    have htail : Completes outer (regexOf inside rest ++ y) := by
      refine ih hrest ?_ hy h
      cases inside with
      | true =>
        simp only [if_true, namesOf, Token.names, List.length_append] at hone ⊢
        omega
      | false =>
        simp only [Bool.false_eq_true, if_false, OneEach] at hone ⊢
        exact hone.2
    have hm : Mannerless (regexOf inside rest ++ y) :=
      (mannerless_of_valid (fun c hc => (hrest c hc).valid) inside).append hy.manner
    rw [regexOf, List.append_assoc]
    -- a run has parentheses of its own around those of the group
    split
    · refine completes_enclosed (mannerless_cons (by decide) _) fun frame => ?_
      exact completes_group suffix (mannerless_cons (by decide) _) htail.closing fun _ _ => hinner
    · exact completes_group suffix hm htail fun _ _ => hinner

section Read

variable {ts : List Token} (hportable : ∀ c ∈ capturesOf ts, IsPortable c) (hone : OneEach ts)

include hportable hone

/-- The text of a rule is an expression if all captures can be read anywhere. -/
theorem exists_read_of_portable : ∃ e, Regex.read (regexOf false ts) = .ok e := by
  have h := @completes_regexOf ts false [] [] hportable hone separate_nil.toFollows .nil
  rw [List.append_nil] at h
  exact h.read

/-- So is that of its paths. -/
theorem exists_read_whole_of_portable : ∃ e, Regex.read (part (regexOf false ts) ++ ['/', '?']) = .ok e := by
  have hslash : Completes [] ['/', '?'] := by
    have hcount : Lexeme.all ['?'] = [.count 0 (some 1) .greedy] := by cbv
    refine .of_next rfl rfl ?_ fun r hr => ⟨_, rfl, ?_⟩
    · rw [hcount]
      exact List.forall_mem_singleton.mpr rfl
    · rw [hcount]
      exact ⟨_, rfl, hr⟩
  refine Completes.read (.opening (fun frame => ?_) (next_part _ _) (Or.inl rfl))
  exact completes_regexOf hportable hone (follows_cons (by decide) (by decide) _) hslash.closing

end Read

end Routing.Pattern
