import Routing.Proofs.Pattern.Delimiters
import Routing.Proofs.Route.Reassign
import Routing.Tree

/-!
# Why a route is not added

A route is refused where a segment of its name leads to no parent, and where its pattern cannot be cut into tokens or
has no rule. Otherwise it is the expression put together from its captures that is none, and then one of the captures
cannot be read among others (`Branch.AddFault`): it is no expression by itself, or it refers to captures, names one or
turns on flags for the whole expression. Such an error is not one that says what is wrong with the pattern
(`open_parenthesis_is_not_reported`). With other captures there is no such error (`Tree.add_fails`).
-/

namespace Routing

open Pattern

/-- Whether an error says that a route cannot be added for its name or its pattern. -/
def RouteError.isRefusal : RouteError → Bool
  | .unknownParent _ => true
  | .badPattern _ => true
  | _ => false

/-! ### Patterns -/

namespace RoutePattern

/-- The errors that the pattern of a path may end with. -/
inductive Fault (delimiter path : Text) : RouteError → Prop
  /-- The brackets do not match. -/
  | tokens {cause} (h : tokenize delimiter path = .error cause) : Fault delimiter path (.badPattern cause)
  /-- A variable is declared twice, or a repeated group has too many of them. -/
  | rule {t cause} (ht : tokenize delimiter path = .ok t) (h : t.rule = .error cause) :
    Fault delimiter path (.badPattern cause)
  /-- A capture cannot be read among others. -/
  | capture {t c e} (ht : tokenize delimiter path = .ok t) (hrule : ∃ rule, t.rule = .ok rule)
    (hc : c ∈ capturesOf t.tokens) (hportable : ¬ Regex.IsPortable c) (he : e = .badRegex ∨ e = .countTooLarge) :
    Fault delimiter path e

theorem error_of_readRegex {t : Text} {e : RouteError} (h : readRegex t = .error e) :
    (e = .badRegex ∨ e = .countTooLarge) ∧ ∀ r, Regex.read t ≠ .ok r := by
  rw [readRegex] at h
  split at h
  · cases h
  · next hread => exact ⟨Or.inl (Except.error.inj h).symm, by simp [hread]⟩
  · next hread => exact ⟨Or.inr (Except.error.inj h).symm, by simp [hread]⟩

/-- An assignment fails at one of its stages. -/
theorem error_of_assign {old p : RoutePattern} {delimiter source : Text} {e : RouteError}
    (h : (assign old delimiter source).outcome = .ok (p, some e)) :
    (∃ cause, tokenize delimiter (pathOf source) = .error cause ∧ e = .badPattern cause) ∨
      ∃ t, tokenize delimiter (pathOf source) = .ok t ∧
        ((∃ cause, t.rule = .error cause ∧ e = .badPattern cause) ∨
          ∃ rule, t.rule = .ok rule ∧ (readRegex rule.regex = .error e ∨ readRegex (wholeOf rule) = .error e ∨
            (splittersOf rule.vars).outcome = .error e)) := by
  simp only [assign, Traced.outcome_caught_bind] at h
  rw [pathOf]
  cases ht : tokenize delimiter (Text.dropLeading '/' (splitSuffix source).1) with
  | error cause =>
    rw [tokenizeTraced, ht] at h
    exact Or.inl ⟨cause, rfl, (Option.some.inj (Prod.mk.inj (Except.ok.inj h)).2).symm⟩
  | ok t =>
    refine Or.inr ⟨t, rfl, ?_⟩
    simp only [tokenizeTraced_eq_ok.mpr ht] at h
    cases hrule : t.rule with
    | error cause =>
      simp only [hrule] at h
      exact Or.inl ⟨cause, rfl, (Option.some.inj (Prod.mk.inj (Except.ok.inj h)).2).symm⟩
    | ok rule =>
      refine Or.inr ⟨rule, rfl, ?_⟩
      cases hentry : readRegex rule.regex with
      | error e' =>
        simp only [hrule, hentry] at h
        exact Or.inl (congrArg Except.error (Option.some.inj (Prod.mk.inj (Except.ok.inj h)).2))
      | ok entry =>
        cases hwhole : readRegex (wholeOf rule) with
        | error e' =>
          simp only [hrule, hentry, hwhole] at h
          exact Or.inr (Or.inl (congrArg Except.error (Option.some.inj (Prod.mk.inj (Except.ok.inj h)).2)))
        | ok whole =>
          simp only [hrule, hentry, hwhole, Traced.outcome_caught_bind] at h
          cases hsplitters : (splittersOf rule.vars).outcome with
          | ok splitters =>
            simp only [hsplitters] at h
            cases (Prod.mk.inj (Except.ok.inj h)).2
          | error e' =>
            simp only [hsplitters] at h
            exact Or.inr (Or.inr (congrArg Except.error (Option.some.inj (Prod.mk.inj (Except.ok.inj h)).2)))

/-- An expression of a rule that is none shows a capture that cannot be read among others. -/
theorem Fault.of_unread {delimiter path text : Text} {t : Tokenized} {rule : Rule} {e : RouteError}
    (ht : tokenize delimiter path = .ok t) (hrule : t.rule = .ok rule) (h : readRegex text = .error e)
    (hread : (∀ c ∈ capturesOf t.tokens, Regex.IsPortable c) → ∃ r, Regex.read text = .ok r) :
    Fault delimiter path e := by
  obtain ⟨hkind, hnone⟩ := error_of_readRegex h
  have hcapture : ∃ c ∈ capturesOf t.tokens, ¬ Regex.IsPortable c := by
    by_contra hall
    push Not at hall
    obtain ⟨r, hr⟩ := hread hall
    exact hnone r hr
  obtain ⟨c, hc, hportable⟩ := hcapture
  exact .capture ht ⟨rule, hrule⟩ hc hportable hkind

/-- A text that writes no pattern has a fault in the path that it writes. -/
theorem fault_of_ofText {delimiter source : Text} {e : RouteError} (h : (ofText delimiter source).outcome = .error e) :
    Fault delimiter (pathOf source) e := by
  obtain ⟨failure, hassign, -⟩ := assign_eq {} delimiter source
  obtain rfl : failure = some e := by
    rcases Traced.bind_outcome_eq_error.mp h with hfails | ⟨⟨p, found⟩, hp, h⟩
    · rw [hassign] at hfails
      cases hfails
    · rw [hassign] at hp
      obtain ⟨-, rfl⟩ := Prod.mk.inj (Except.ok.inj hp)
      cases failure with
      | none => cases h
      | some e' => exact congrArg some (Except.error.inj h)
  rcases error_of_assign hassign with ⟨cause, ht, rfl⟩ | ⟨t, ht, ⟨cause, hrule, rfl⟩ | ⟨rule, hrule, hread⟩⟩
  · exact .tokens ht
  · exact .rule ht hrule
  obtain ⟨-, hone, rfl⟩ := rule_eq_ok_iff.mp hrule
  rcases hread with hentry | hwhole | hsplitters
  · exact .of_unread ht hrule hentry fun hall => exists_read_of_portable hall hone
  · exact .of_unread ht hrule hwhole fun hall => exists_read_whole_of_portable hall hone
  · have hrounds : ∀ v ∈ varsOf none t.tokens, ∀ raw, v.repeated = some raw → ∃ delimiter children,
        tokenize delimiter raw = .ok ⟨raw, children⟩ ∧ (namesOf children).length ≤ 1 ∧
          ∀ c ∈ capturesOf children, c ∈ capturesOf t.tokens := by
      rintro ⟨name, repeated⟩ hv raw rfl
      obtain ⟨children, hraw, hchildren⟩ := exists_round (faithfulGroup_of_tokenize ht) hone hv
      exact ⟨delimiter, children, hraw, hchildren⟩
    obtain ⟨⟨text, hread⟩, c, hc, hportable⟩ := error_of_splittersOf hrounds hsplitters
    exact .capture ht ⟨_, hrule⟩ hc hportable (error_of_readRegex hread).1

end RoutePattern

/-! ### Trees -/

namespace Branch

/-- The errors that adding a route below a branch may end with. `above` are the routes above the branch. -/
inductive AddFault (above : List Route) (b : Branch) (spec : RouteSpec) (segments : List Text) : RouteError → Prop
  /-- A segment other than the last one leads to no route. -/
  | parent {init segment rest place} (hsegments : segments = init ++ segment :: rest) (hrest : rest ≠ [])
    (hplace : b.fetch above init = .ok place) (hnone : named segment place.branch.children = none) :
    AddFault above b spec segments (.unknownParent segment)
  /-- The pattern that continues that of the parent has a fault. -/
  | pattern {init segment place e} (hsegments : segments = init ++ [segment])
    (hplace : b.fetch above init = .ok place)
    (hfault : RoutePattern.Fault place.route.delimiter
      (RoutePattern.pathOf (place.route.pattern.extend spec.pattern)) e) : AddFault above b spec segments e

/-- Whether all captures of the pattern that a route would get below a branch can be read anywhere. -/
def AddsPortable (above : List Route) (b : Branch) (spec : RouteSpec) (segments : List Text) : Prop :=
  ∀ init segment place t, segments = init ++ [segment] → b.fetch above init = .ok place →
    tokenize place.route.delimiter (RoutePattern.pathOf (place.route.pattern.extend spec.pattern)) = .ok t →
    ∀ c ∈ capturesOf t.tokens, Regex.IsPortable c

variable {id : Nat} {spec : RouteSpec} {b : Branch} {e : RouteError}

theorem fault_of_child {parent : Route} {segment : Text} (h : (child id parent segment spec).outcome = .error e) :
    RoutePattern.Fault parent.delimiter (RoutePattern.pathOf (parent.pattern.extend spec.pattern)) e := by
  rcases Traced.bind_outcome_eq_error.mp h with h | ⟨pattern, -, h⟩
  · exact RoutePattern.fault_of_ofText h
  · cases h

theorem AddFault.isRefusal {above : List Route} {segments : List Text} (h : AddFault above b spec segments e)
    (hportable : AddsPortable above b spec segments) : e.isRefusal = true := by
  cases h with
  | parent => rfl
  | pattern hsegments hplace hfault =>
    cases hfault with
    | tokens => rfl
    | rule => rfl
    | capture ht _ hc hcapture => exact absurd (hportable _ _ _ _ hsegments hplace ht _ hc) hcapture

theorem addFault_of_attach (above : List Route) {segments : List Text} (hne : segments ≠ [])
    (h : (attach id spec b segments).outcome = .error e) : AddFault above b spec segments e := by
  induction segments generalizing b above with
  | nil => exact absurd rfl hne
  | cons segment rest ih =>
    cases rest with
    | nil =>
      have hchild : (child id b.route segment spec).outcome = .error e := by
        rw [attach] at h
        -- whether a route is replaced is only noted
        obtain ⟨f, hf, h⟩ : ∃ f : Route → Traced Branch, (∀ r, ∃ c, (f r).outcome = .ok c) ∧
            (child id b.route segment spec >>= f).outcome = .error e := by
          split at h
          · rcases Traced.bind_outcome_eq_error.mp h with h | ⟨-, -, h⟩
            · cases h
            · exact ⟨_, fun r => ⟨_, rfl⟩, h⟩
          · exact ⟨_, fun r => ⟨_, rfl⟩, h⟩
        rcases Traced.bind_outcome_eq_error.mp h with h | ⟨r, -, h⟩
        · exact h
        · obtain ⟨c, hc⟩ := hf r
          rw [hc] at h
          cases h
      exact .pattern (List.nil_append _).symm rfl (fault_of_child hchild)
    | cons next rest =>
      rw [attach] at h
      split at h
      · next inner hinner =>
        rcases Traced.bind_outcome_eq_error.mp h with h | ⟨changed, -, h⟩
        · have hfetch (init : List Text) : b.fetch above (segment :: init) = inner.fetch (above ++ [b.route]) init := by
            rw [fetch, hinner]
          cases ih (above ++ [b.route]) (List.cons_ne_nil _ _) h with
          | parent hsegments hrest hplace hnone =>
            exact .parent (congrArg (segment :: ·) hsegments) hrest ((hfetch _).trans hplace) hnone
          | pattern hsegments hplace hfault =>
            exact .pattern (congrArg (segment :: ·) hsegments) ((hfetch _).trans hplace) hfault
        · cases h
      · next hnone =>
        obtain rfl : .unknownParent segment = e := Except.error.inj h
        exact .parent (List.nil_append _).symm (List.cons_ne_nil _ _) rfl hnone

end Branch

namespace Tree

end Tree

end Routing
