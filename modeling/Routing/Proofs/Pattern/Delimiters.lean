import Routing.Proofs.Pattern.Acceptance
import Routing.Proofs.Pattern.Faithful
import Routing.Proofs.Pattern.Portable
import Routing.Proofs.Route.Assign

/-!
# The tokens under another delimiter

The runs of repeated variables are split by the pattern of their group, but always with slashes for its delimiter. Its
tokens are the same then but for the captures that are not written (`recaptured_of_tokenize`). So a pattern with a rule
has splitters, if its captures can be read anywhere (`error_of_splittersOf`).
-/

namespace Routing.Pattern

/-! ### Captures that are not written -/

/-- Whether some tokens have the variables of others, and no other captures but a default. -/
structure Recaptured (default : Text) (ts ts' : List Token) : Prop where
  names : namesOf ts' = namesOf ts
  captures : ∀ c ∈ capturesOf ts', c = default ∨ c ∈ capturesOf ts

section Recaptured

variable {default default' : Text}

theorem Recaptured.append {a a' b b' : List Token} (ha : Recaptured default a a') (hb : Recaptured default b b') :
    Recaptured default (a ++ b) (a' ++ b') := by
  refine ⟨by rw [namesOf_append, namesOf_append, ha.names, hb.names], fun c hc => ?_⟩
  rw [capturesOf_append, List.mem_append] at hc ⊢
  rcases hc with hc | hc
  · exact (ha.captures c hc).imp_right Or.inl
  · exact (hb.captures c hc).imp_right Or.inr

theorem recaptured_literalOf (reversed : Text) : Recaptured default (literalOf reversed) (literalOf reversed) :=
  ⟨rfl, fun _ hc => Or.inr hc⟩

/-- A variable is there with another default too, and has another capture only if none is written. -/
theorem variableAt_default (default default' t : Text) :
    (variableAt default t = none ∧ variableAt default' t = none) ∨ ∃ name c c' after,
      variableAt default t = some (name, c, after) ∧ variableAt default' t = some (name, c', after) ∧
        (c' = default' ∨ c' = c) := by
  unfold variableAt
  simp only
  split
  · exact Or.inl ⟨rfl, rfl⟩
  · split
    · exact Or.inr ⟨_, _, _, _, rfl, rfl, Or.inl rfl⟩
    · next more _ =>
      cases closingBrace 0 more with
      | none => exact Or.inl ⟨rfl, rfl⟩
      | some found =>
        refine Or.inr ⟨_, _, _, _, rfl, rfl, ?_⟩
        split
        · exact Or.inl rfl
        · exact Or.inr rfl
    · exact Or.inl ⟨rfl, rfl⟩

theorem recaptured_runTokens (default default' literal t : Text) :
    Recaptured default' (runTokens default literal t) (runTokens default' literal t) := by
  fun_induction runTokens default literal t with
  | case1 literal =>
    rw [runTokens]
    exact recaptured_literalOf literal
  | case2 literal rest name capture after hvar ih =>
    rcases variableAt_default default default' rest with ⟨hnone, -⟩ | ⟨name', _, c', after', hsome, hvar', hc'⟩
    · rw [hnone] at hvar
      cases hvar
    · rw [hsome, Option.some.injEq, Prod.mk.injEq, Prod.mk.injEq] at hvar
      obtain ⟨rfl, rfl, rfl⟩ := hvar
      have htokens : runTokens default' literal ('\x7b' :: rest) =
          literalOf literal ++ .variable name' c' :: runTokens default' [] after' := by
        rw [runTokens, if_pos rfl]
        split <;> simp_all
      rw [htokens]
      refine (recaptured_literalOf literal).append ⟨?_, fun c hc => ?_⟩
      · simp [namesOf, Token.names, ih.names]
      · rw [capturesOf, List.mem_cons] at hc ⊢
        rcases hc with rfl | hc
        · exact hc'.imp_right Or.inl
        · exact (ih.captures c hc).imp_right Or.inr
  | case3 literal rest hvar ih =>
    rcases variableAt_default default default' rest with ⟨-, hnone⟩ | ⟨_, _, _, _, hsome, -⟩
    · have htokens : runTokens default' literal ('\x7b' :: rest) = runTokens default' ('\x7b' :: literal) rest := by
        rw [runTokens, if_pos rfl]
        split <;> simp_all
      rw [htokens]
      exact ih
    · rw [hsome] at hvar
      cases hvar
  | case4 literal c rest hc ih =>
    rw [runTokens, if_neg hc]
    exact ih

theorem recaptured_partsTokens (default default' : Text) :
    ∀ parts : List Part, Recaptured default' (partsTokens default parts).1 (partsTokens default' parts).1
  | [] => ⟨by simp [partsTokens], by simp [partsTokens, capturesOf]⟩
  | .text t :: rest => by
    simp only [partsTokens, partTokens]
    exact (recaptured_runTokens default default' [] t).append (recaptured_partsTokens default default' rest)
  | .group raw inner suffix :: rest => by
    have hinner := recaptured_partsTokens default default' inner
    simp only [partsTokens, partTokens]
    refine Recaptured.append ⟨?_, ?_⟩ (recaptured_partsTokens default default' rest)
    · simpa [namesOf, Token.names] using hinner.names
    · simpa [capturesOf] using hinner.captures

/-- A pattern is tokenized with another delimiter too, into the same variables and other default captures. -/
theorem recaptured_of_tokenize {delimiter pattern : Text} {t : Tokenized} (h : tokenize delimiter pattern = .ok t)
    (delimiter' : Text) : ∃ ts', tokenize delimiter' pattern = .ok ⟨pattern, ts'⟩ ∧
      Recaptured (defaultCapture delimiter') t.tokens ts' := by
  obtain ⟨parts, hscan, htokens⟩ := tokenize_eq_ok h
  exact ⟨_, tokenize_of_scan hscan, htokens ▸ recaptured_partsTokens _ _ parts⟩

end Recaptured

/-! ### Splitters -/

/-- A repeated variable has the pattern of a group, all of whose captures are among those around it. -/
theorem exists_round {delimiter : Text} {ts : List Token} (hts : GroupsAll (FaithfulGroup delimiter) ts)
    (hone : OneEach ts) {name raw : Text} (h : ⟨name, some raw⟩ ∈ varsOf none ts) :
    ∃ children, tokenize delimiter raw = .ok ⟨raw, children⟩ ∧ (namesOf children).length ≤ 1 ∧
      ∀ c ∈ capturesOf children, c ∈ capturesOf ts := by
  induction ts using tokens_induction with
  | nil => simp [varsOf] at h
  | literal text rest ih =>
    rw [GroupsAll] at hts
    rw [OneEach] at hone
    rw [varsOf] at h
    simpa only [capturesOf] using ih hts hone h
  | var other c rest ih =>
    rw [GroupsAll] at hts
    rw [OneEach] at hone
    obtain ⟨children, hraw, hlength, hsub⟩ := ih hts hone (by simpa [varsOf] using h)
    refine ⟨children, hraw, hlength, fun c hc => ?_⟩
    rw [capturesOf]
    exact List.mem_cons_of_mem _ (hsub c hc)
  | group suffix binds around children rest ihc ih =>
    rw [GroupsAll] at hts
    rw [OneEach] at hone
    rw [varsOf, List.mem_append] at h
    simp only [capturesOf, List.mem_append]
    rcases h with h | h
    · cases hrepeats : suffix.repeats with
      | false =>
        rw [within, hrepeats] at h
        rw [if_neg (ne_true_of_eq_false hrepeats)] at hone
        obtain ⟨inner, hraw, hlength, hsub⟩ := ihc hts.2.1 hone.1 h
        exact ⟨inner, hraw, hlength, fun c hc => Or.inl (hsub c hc)⟩
      | true =>
        rw [within, if_pos hrepeats, Option.none_or, varsOf_some] at h
        rw [if_pos hrepeats] at hone
        obtain ⟨_, -, heq⟩ := List.mem_map.mp h
        obtain rfl : around = raw := Option.some.inj (Variable.mk.inj heq).2
        exact ⟨children, hts.1.tokenized, hone.1, fun c hc => Or.inl hc⟩
    · obtain ⟨inner, hraw, hlength, hsub⟩ := ih hts.2.2 hone.2 h
      exact ⟨inner, hraw, hlength, fun c hc => Or.inr (hsub c hc)⟩

/-- The pattern of a group with one variable at most has a rule under slashes, whatever it has under its delimiter. -/
theorem exists_ruleTraced {delimiter raw : Text} {children : List Token}
    (hraw : tokenize delimiter raw = .ok ⟨raw, children⟩) (hone : (namesOf children).length ≤ 1) :
    ∃ ts', (ruleTraced ['/'] raw).outcome = .ok ⟨regexOf false ts', varsOf none ts'⟩ ∧ OneEach ts' ∧
      Recaptured (defaultCapture ['/']) children ts' := by
  obtain ⟨ts', hts', hsame⟩ := recaptured_of_tokenize hraw ['/']
  have hone' : OneEach ts' := oneEach_of_length (hsame.names ▸ hone)
  have hnodup : (namesOf ts').Nodup := by
    rw [hsame.names]
    match h : namesOf children with
    | [] => exact List.nodup_nil
    | [name] => exact List.nodup_singleton name
    | _ :: _ :: _ => simp [h] at hone
  exact ⟨ts', ruleTraced_eq_ok.mpr ⟨_, hts', rule_eq_ok_iff.mpr ⟨hnodup, hone', rfl⟩⟩, hone', hsame⟩

/-- The runs of a pattern have splitters if its captures can be read anywhere. If not, the error is that of an
expression. -/
theorem error_of_splittersOf {vars : List Variable} {captures : List Text}
    (hvars : ∀ v ∈ vars, ∀ raw, v.repeated = some raw → ∃ delimiter children,
      tokenize delimiter raw = .ok ⟨raw, children⟩ ∧ (namesOf children).length ≤ 1 ∧
        ∀ c ∈ capturesOf children, c ∈ captures) {e : RouteError} (h : (splittersOf vars).outcome = .error e) :
    (∃ t, readRegex t = .error e) ∧ ∃ c ∈ captures, ¬ Regex.IsPortable c := by
  induction vars with
  | nil => cases h
  | cons v vars ih =>
    rw [List.forall_mem_cons] at hvars
    rw [splittersOf] at h
    split at h
    · exact ih hvars.2 h
    · next raw hrepeated =>
      obtain ⟨delimiter, children, hraw, hone, hsub⟩ := hvars.1 raw hrepeated
      obtain ⟨ts', hrule, hone', hsame⟩ := exists_ruleTraced hraw hone
      rcases Traced.bind_outcome_eq_error.mp h with hfails | ⟨rule, hrule', h⟩
      · rw [hrule] at hfails
        cases hfails
      rw [hrule, Except.ok.injEq] at hrule'
      subst hrule'
      rcases Traced.bind_outcome_eq_error.mp h with hfails | ⟨splitter, -, h⟩
      · -- a capture that is not written is a default one, and that can be read anywhere
        refine ⟨⟨_, hfails⟩, ?_⟩
        by_contra hportable
        push Not at hportable
        have hcaptures : ∀ c ∈ capturesOf ts', Regex.IsPortable c := by
          intro c hc
          rcases hsame.captures c hc with rfl | hc
          · exact isPortable_defaultCapture (List.cons_ne_nil _ _)
          · exact hportable c (hsub c hc)
        obtain ⟨e', he'⟩ := exists_read_of_portable hcaptures hone'
        have hread : readRegex (regexOf false ts') = .error e := hfails
        rw [readRegex_eq_ok.mpr he'] at hread
        cases hread
      · rcases Traced.bind_outcome_eq_error.mp h with hfails | ⟨others, -, h⟩
        · exact ih hvars.2 hfails
        · cases h

end Routing.Pattern
