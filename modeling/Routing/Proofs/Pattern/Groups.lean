import Routing.Proofs.Pattern.Source

/-!
# Groups of a pattern

The pieces of a group are those that the pattern between its brackets is cut into (`settled_of_scan`), since a scan that
has taken the text of an open bracket goes on as one that starts with that text does (`Open.Resumes`). So the tokens of
a group are those of its pattern (`rawTokenized_of_tokenize`).
-/

namespace Routing.Pattern

namespace Part

/-- Whether the last thing in an open bracket is a group without a suffix. -/
def Open.EndsBare (o : Open) : Prop := o.buffer = [] ∧ ∃ raw parts rest, o.parts = .group raw parts .optional :: rest

/-- Whether a text starts with no suffix of a group. -/
def NoSuffix (t : Text) : Prop := t.head? ≠ some '*' ∧ t.head? ≠ some '+'

theorem noSuffix_nil : NoSuffix [] := ⟨nofun, nofun⟩

/-- Whether a scan of the text that an open bracket has taken, with more text behind it, comes to that bracket. -/
def Open.Resumes (o : Open) (braces : Nat) : Prop :=
  ∀ outer y, (o.EndsBare → NoSuffix y) → scan 0 {} outer (o.source ++ y) = scan braces o outer y

/-- Whether a scan of the text that an open bracket has taken, with one more bracket behind it, opens that one. -/
def Open.Waits (o : Open) : Prop :=
  o.buffer = [] ∧ ∀ outer y, scan 0 {} outer (o.source ++ '[' :: y) = scan 0 {} (o :: outer) y

/-- Whether the pieces of a group, and of those in it, are what the pattern between its brackets is cut into. -/
inductive Settled : Part → Prop
  | text (t : Text) : Settled (.text t)
  | group {raw inner suffix} (h : scan 0 {} [] raw = some inner) (hinner : ∀ p ∈ inner, Settled p) :
    Settled (.group raw inner suffix)

theorem noSuffix_cons {c : Char} {t : Text} : NoSuffix (c :: t) ↔ c ≠ '*' ∧ c ≠ '+' := by simp [NoSuffix]

theorem readSuffix_written {suffix : Suffix} {y : Text} (h : suffix = .optional → NoSuffix y) :
    readSuffix (suffix.written ++ y) = (suffix, y) := by
  cases suffix with
  | optional =>
    have hy := readSuffix_append (t := []) (h rfl)
    simpa [Suffix.written, readSuffix] using hy
  | star => rfl
  | plus => rfl

theorem noSuffix_readSuffix {t : Text} (h : (readSuffix t).1 = .optional) : NoSuffix (readSuffix t).2 := by
  unfold readSuffix at h ⊢
  split at h
  · cases h
  · cases h
  · next hstar hplus =>
    constructor
    · intro hhead
      obtain ⟨rest, rfl⟩ := List.head?_eq_some_iff.mp hhead
      exact hstar rest rfl
    · intro hhead
      obtain ⟨rest, rfl⟩ := List.head?_eq_some_iff.mp hhead
      exact hplus rest rfl

theorem resumes_empty : Open.Resumes {} 0 := fun _ _ _ => rfl

/-- Taking one more character that is in braces or no bracket. -/
theorem Open.Resumes.push {o : Open} {braces after : Nat} {c : Char} (h : o.Resumes braces)
    (hc : o.EndsBare → c ≠ '*' ∧ c ≠ '+')
    (hscan : ∀ outer y, scan braces o outer (c :: y) = scan after (o.push c) outer y) : (o.push c).Resumes after := by
  intro outer y _
  rw [Open.source_push, List.append_assoc, List.singleton_append, h outer _ fun hends => noSuffix_cons.mpr (hc hends),
    hscan]

theorem Open.Resumes.waits {o : Open} (h : o.Resumes 0) : o.rest.Waits := by
  refine ⟨rfl, fun outer y => ?_⟩
  rw [Open.source_rest, h outer _ fun _ => noSuffix_cons.mpr (by decide), scan_cons, if_neg (by decide), if_pos rfl]

theorem Open.Resumes.add {o inner : Open} (hinner : inner.Resumes 0) (ho : o.Waits) (suffix : Suffix) :
    (o.add inner.pieces suffix).Resumes 0 := by
  intro outer y hy
  have hsuffix : readSuffix (suffix.written ++ y) = (suffix, y) := by
    apply readSuffix_written
    rintro rfl
    exact hy ⟨rfl, _, _, _, rfl⟩
  rw [Open.source_add o ho.1, Open.flatMap_pieces]
  simp only [List.cons_append, List.append_assoc]
  rw [ho.2, hinner _ _ fun _ => noSuffix_cons.mpr (by decide), scan_cons, if_neg (by decide), if_neg (by decide),
    if_pos rfl, hsuffix]

theorem settled_pieces {o : Open} (h : ∀ p ∈ o.parts, Settled p) : ∀ p ∈ o.pieces, Settled p := by
  intro p hp
  rw [Open.pieces, List.mem_reverse] at hp
  split at hp
  · exact h p hp
  · rcases List.mem_cons.mp hp with rfl | hp
    · exact .text _
    · exact h p hp

/-- The groups that a scan finds are settled. -/
theorem settled_of_scan {braces : Nat} {inner : Open} {outer : List Open} {t : Text} {parts : List Part}
    (h : scan braces inner outer t = some parts) (hinner : inner.Resumes braces) (hends : inner.EndsBare → NoSuffix t)
    (hsettled : ∀ p ∈ inner.parts, Settled p) (houter : ∀ o ∈ outer, o.Waits ∧ ∀ p ∈ o.parts, Settled p) :
    ∀ p ∈ parts, Settled p := by
  fun_induction scan braces inner outer t with
  | case1 braces inner outer hempty =>
    rw [← Option.some.inj h]
    exact settled_pieces hsettled
  | case2 => cases h
  | case3 braces inner outer c rest hc ih =>
    refine ih h (hinner.push (fun hbare => noSuffix_cons.mp (hends hbare)) ?_) ?_ hsettled houter
    · intro outer y
      rw [scan_cons, if_pos hc]
    · rintro ⟨hnil, -⟩
      cases hnil
  | case4 braces inner outer rest hc ih =>
    obtain rfl : braces = 0 := by omega
    have hrest : ∀ p ∈ inner.rest.parts, Settled p := fun p hp => settled_pieces hsettled p (List.mem_reverse.mp hp)
    refine ih h resumes_empty ?_ (by simp) (List.forall_mem_cons.mpr ⟨⟨hinner.waits, hrest⟩, houter⟩)
    rintro ⟨-, _, _, _, hnil⟩
    cases hnil
  | case5 => cases h
  | case6 braces inner rest enclosing others h₁ h₂ ih =>
    obtain rfl : braces = 0 := by omega
    obtain ⟨⟨hwaits, hparts⟩, hothers⟩ := List.forall_mem_cons.mp houter
    have hraw : scan 0 {} [] (inner.pieces.flatMap Part.source) = some inner.pieces := by
      have hall := hinner [] [] fun _ => noSuffix_nil
      rw [List.append_nil] at hall
      rw [Open.flatMap_pieces, hall, scan]
      rfl
    have hgroup := @Settled.group _ _ (readSuffix rest).1 hraw (settled_pieces hsettled)
    refine ih h (hinner.add hwaits _) ?_ (List.forall_mem_cons.mpr ⟨hgroup, hparts⟩) hothers
    rintro ⟨-, _, _, _, hgroup⟩
    exact noSuffix_readSuffix (Part.group.inj (List.cons.inj hgroup).1).2.2
  | case7 braces inner outer c rest h₁ h₂ h₃ ih =>
    obtain rfl : braces = 0 := by omega
    refine ih h (hinner.push (fun hbare => noSuffix_cons.mp (hends hbare)) ?_) ?_ hsettled houter
    · intro outer y
      rw [scan_cons, if_neg h₁, if_neg h₂, if_neg h₃]
    · rintro ⟨hnil, -⟩
      cases hnil

end Part

/-! ### What holds of all groups -/

/-- Whether something holds of every group among some tokens and of those in it. -/
def GroupsAll (p : Suffix → Option Text → Text → List Token → Prop) : List Token → Prop
  | [] => True
  | .literal _ :: rest => GroupsAll p rest
  | .variable _ _ :: rest => GroupsAll p rest
  | .group suffix binds raw children :: rest => p suffix binds raw children ∧ GroupsAll p children ∧ GroupsAll p rest

section GroupsAll

variable {p : Suffix → Option Text → Text → List Token → Prop}

theorem groupsAll_append {a b : List Token} : GroupsAll p (a ++ b) ↔ GroupsAll p a ∧ GroupsAll p b := by
  induction a with
  | nil => simp [GroupsAll]
  | cons token a ih => cases token <;> simp [GroupsAll, ih, and_assoc]

/-- A text between groups has none. -/
theorem groupsAll_runTokens (default literal t : Text) : GroupsAll p (runTokens default literal t) := by
  have hliteral : ∀ literal, GroupsAll p (literalOf literal) := by
    intro literal
    cases literal <;> simp [literalOf, GroupsAll]
  fun_induction runTokens default literal t with
  | case1 literal => exact hliteral literal
  | case2 literal rest name capture after hvar ih =>
    rw [groupsAll_append, GroupsAll]
    exact ⟨hliteral literal, ih⟩
  | case3 literal rest hvar ih => exact ih
  | case4 literal c rest hc ih => exact ih

/-- What holds of the groups that settled pieces become holds of all groups. -/
theorem groupsAll_partsTokens {default : Text} (h : ∀ raw inner suffix, Part.scan 0 {} [] raw = some inner →
      p suffix (if suffix.repeats then (partsTokens default inner).2 else none) raw (partsTokens default inner).1) :
    ∀ parts : List Part, (∀ part ∈ parts, part.Settled) → GroupsAll p (partsTokens default parts).1
  | [], _ => by simp [partsTokens, GroupsAll]
  | .text t :: rest, hsettled => by
    rw [List.forall_mem_cons] at hsettled
    simp only [partsTokens, partTokens, groupsAll_append]
    exact ⟨groupsAll_runTokens _ _ _, groupsAll_partsTokens h rest hsettled.2⟩
  | .group raw inner suffix :: rest, hsettled => by
    rw [List.forall_mem_cons] at hsettled
    obtain ⟨hgroup, hrest⟩ := hsettled
    cases hgroup with
    | group hraw hinner =>
      simp only [partsTokens, partTokens, groupsAll_append, GroupsAll, and_true]
      exact ⟨⟨h raw inner suffix hraw, groupsAll_partsTokens h inner hinner⟩, groupsAll_partsTokens h rest hrest⟩

theorem groupsAll_of_tokenize {delimiter pattern : Text} {t : Tokenized} (ht : tokenize delimiter pattern = .ok t)
    (h : ∀ raw inner suffix, Part.scan 0 {} [] raw = some inner →
      p suffix (if suffix.repeats then (partsTokens (defaultCapture delimiter) inner).2 else none) raw
        (partsTokens (defaultCapture delimiter) inner).1) : GroupsAll p t.tokens := by
  obtain ⟨parts, hparts, htokens⟩ := tokenize_eq_ok ht
  rw [htokens]
  refine groupsAll_partsTokens h parts (Part.settled_of_scan hparts Part.resumes_empty ?_ (by simp) (by simp))
  rintro ⟨-, _, _, _, hnil⟩
  cases hnil

end GroupsAll

/-- Whether the tokens of every group are those of the pattern between its brackets. -/
def RawTokenized (delimiter : Text) : List Token → Prop :=
  GroupsAll fun _ _ raw children => tokenize delimiter raw = .ok ⟨raw, children⟩

/-- The tokens of every group in a pattern are those of the pattern between its brackets. -/
theorem rawTokenized_of_tokenize {delimiter pattern : Text} {t : Tokenized} (h : tokenize delimiter pattern = .ok t) :
    RawTokenized delimiter t.tokens := by
  refine groupsAll_of_tokenize h fun raw inner suffix hraw => ?_
  rw [tokenize, Part.outline, hraw]
  rfl

/-- Whether only groups that may be repeated take their values from a variable. -/
def OnlyRepeatsBind : List Token → Prop := GroupsAll fun suffix binds _ _ => binds.isSome = true → suffix.repeats = true

theorem onlyRepeatsBind_of_tokenize {delimiter pattern : Text} {t : Tokenized}
    (h : tokenize delimiter pattern = .ok t) : OnlyRepeatsBind t.tokens := by
  refine groupsAll_of_tokenize h fun raw inner suffix _ => ?_
  cases suffix.repeats <;> simp

end Routing.Pattern
