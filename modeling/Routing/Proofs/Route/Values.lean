import Routing.Proofs.Mapping
import Routing.Proofs.Pattern.Filling
import Routing.Proofs.Route.Assign
import Routing.Route.Params

/-!
# Values of path variables

The value of a variable is made of the text that the capture of its number took. Where no capture of the pattern opens
captures of its own, that is the variable's own capture (`hasOwnCaptures`). A capture that does shifts the numbers of
all that come after it (`inner_capture_shifts`).
-/

namespace Routing

open Pattern

namespace Route

/-- Only a possessive loop lets a run be refused. -/
theorem error_of_splitRun {splitter : Regex} {run : Text} {e : RouteError} (h : splitRun splitter run = .error e) :
    e = .crossedCapture ∧ splitter.hasPossessive = true := by
  rw [splitRun] at h
  split at h
  · next hcrosses =>
    refine ⟨(Except.error.inj h).symm, ?_⟩
    rw [← Bool.not_eq_false]
    intro hnone
    rw [Regex.crosses_search hnone run] at hcrosses
    cases hcrosses
  · cases h

theorem error_of_variableValue {p : RoutePattern} {v : Variable} {captured : Option Text} {e : RouteError}
    (hsplitters : ∀ raw, v.repeated = some raw → ∃ splitter, p.splitters.lookup v.name = some splitter)
    (h : variableValue p v captured = .error e) :
    e = .crossedCapture ∧ ∃ splitter, p.splitters.lookup v.name = some splitter ∧ splitter.hasPossessive = true := by
  unfold variableValue at h
  split at h
  · cases h
  · next raw hrepeated =>
    obtain ⟨splitter, hsplitter⟩ := hsplitters raw hrepeated
    simp only [hsplitter] at h
    split at h
    · cases h
    · cases hrun : splitRun splitter (captured.getD []) with
      | ok values =>
        rw [hrun] at h
        cases h
      | error e' =>
        rw [hrun] at h
        obtain ⟨rfl, hpossessive⟩ := error_of_splitRun hrun
        exact ⟨(Except.error.inj h).symm, splitter, hsplitter, hpossessive⟩

section ValuesFrom

variable {p : RoutePattern} {matched : Regex.Cursor} {index : Nat} {vars : List Variable}

/-- Each variable has the value that the capture of its number gives it. -/
theorem value_of_valuesFrom {entries : List (Text × Value)} (h : valuesFrom p matched index vars = .ok entries) :
    entries.map Prod.fst = vars.map Variable.name ∧ ∀ i v, vars[i]? = some v →
      ∃ value, variableValue p v (matched.captured (index + i)) = .ok value ∧ (v.name, value) ∈ entries := by
  induction vars generalizing index entries with
  | nil =>
    rw [valuesFrom, Except.ok.injEq] at h
    exact ⟨by rw [← h]; rfl, nofun⟩
  | cons v vars ih =>
    rw [valuesFrom] at h
    split at h
    · cases h
    · obtain ⟨value, hvalue, h⟩ := bind_eq_ok.mp h
      obtain ⟨others, hothers, h⟩ := bind_eq_ok.mp h
      obtain ⟨hnames, hvalues⟩ := ih hothers
      rw [← Except.ok.inj h]
      refine ⟨by rw [List.map_cons, List.map_cons, hnames], fun i w hi => ?_⟩
      cases i with
      | zero =>
        obtain rfl := Option.some.inj hi
        exact ⟨value, hvalue, List.mem_cons_self⟩
      | succ i =>
        obtain ⟨value', hvalue', hmem⟩ := hvalues i w hi
        rw [Nat.add_right_comm, Nat.add_assoc] at hvalue'
        exact ⟨value', hvalue', List.mem_cons_of_mem _ hmem⟩

/-- There are values unless one of them is refused. -/
theorem error_of_valuesFrom {e : RouteError} (hcount : index + vars.length ≤ p.whole.captureCount + 1)
    (h : valuesFrom p matched index vars = .error e) :
    ∃ v ∈ vars, ∃ captured, variableValue p v captured = .error e := by
  induction vars generalizing index with
  | nil => cases h
  | cons v vars ih =>
    rw [List.length_cons] at hcount
    rw [valuesFrom, if_neg (by omega)] at h
    rcases bind_eq_error.mp h with hvalue | ⟨value, -, h⟩
    · exact ⟨v, List.mem_cons_self, _, hvalue⟩
    · rcases bind_eq_error.mp h with hothers | ⟨others, -, h⟩
      · obtain ⟨w, hw, hvalue⟩ := ih (by omega) hothers
        exact ⟨w, List.mem_cons_of_mem _ hw, hvalue⟩
      · cases h

end ValuesFrom

end Route

namespace RoutePattern.Assigned

variable {r : Route} {delimiter : Text} {found : Regex.Cursor}

/-- A match has values unless a possessive loop in a repeated group crossed a capture. -/
theorem error_of_values (hp : r.pattern.Assigned delimiter)
    (hcount : r.pattern.rule.vars.length ≤ r.pattern.whole.captureCount) {e : RouteError}
    (h : r.values found = .error e) : e = .crossedCapture ∧
      ∃ name splitter, r.pattern.splitters.lookup name = some splitter ∧ splitter.hasPossessive = true := by
  rw [Route.values] at h
  cases hfrom : Route.valuesFrom r.pattern found 1 r.pattern.rule.vars with
  | ok entries =>
    rw [hfrom] at h
    cases h
  | error e' =>
    rw [hfrom] at h
    rw [← Except.error.inj h]
    obtain ⟨⟨name, repeated⟩, hmem, captured, hvalue⟩ := Route.error_of_valuesFrom (by omega) hfrom
    have hsplitters : ∀ raw, repeated = some raw → ∃ splitter, r.pattern.splitters.lookup name = some splitter := by
      rintro raw rfl
      obtain ⟨-, splitter, -, -, hlookup⟩ := lookup_of_splittersOf hp.splitters hp.nodup_vars hmem
      exact ⟨splitter, hlookup⟩
    obtain ⟨hcrossed, splitter, hlookup, hpossessive⟩ := Route.error_of_variableValue hsplitters hvalue
    exact ⟨hcrossed, name, splitter, hlookup, hpossessive⟩

/-- The values are those of the captures, by number. -/
theorem value_of_values (hp : r.pattern.Assigned delimiter) {values : Mapping Value} (h : r.values found = .ok values)
    {i : Nat} {v : Variable} (hi : r.pattern.rule.vars[i]? = some v) :
    ∃ value, Route.variableValue r.pattern v (found.captured (i + 1)) = .ok value ∧
      values.get? v.name = some value := by
  rw [Route.values] at h
  cases hfrom : Route.valuesFrom r.pattern found 1 r.pattern.rule.vars with
  | error e =>
    rw [hfrom] at h
    cases h
  | ok entries =>
    rw [hfrom] at h
    obtain ⟨hnames, heach⟩ := Route.value_of_valuesFrom hfrom
    have hnodup : (entries.map Prod.fst).Nodup := hnames ▸ hp.nodup_vars
    have hentries : values = ⟨entries⟩ := (Except.ok.inj h).symm.trans (Mapping.ofList_eq hnodup)
    obtain ⟨value, hvalue, hmem⟩ := heach i v hi
    rw [Nat.add_comm] at hvalue
    exact ⟨value, hvalue, by rw [hentries, Mapping.get?_of_mem hnodup hmem]⟩

end RoutePattern.Assigned

namespace Route

/-- Whether the captures of a route's expression are those of its variables, in their order, and a match gives each
variable that is not repeated the text that its own capture took. -/
structure HasOwnCaptures (r : Route) : Prop where
  vars : r.pattern.rule.vars = (boundOf none r.pattern.tokens.tokens).map Prod.fst
  count : r.pattern.entry.captureCount = r.pattern.rule.vars.length
  /-- Only a possessive loop in a repeated group may leave a match without values. -/
  refused : ∀ {found e}, r.values found = .error e → e = .crossedCapture ∧
    ∃ name splitter, r.pattern.splitters.lookup name = some splitter ∧ splitter.hasPossessive = true
  /-- The value is null if the capture took no part in the match or took the empty text. -/
  values : ∀ {path found values}, sound r.pattern.whole (r.pattern.whole.matchWhole path) = .ok (some found) →
    r.values found = .ok values → ∀ {i v c}, (boundOf none r.pattern.tokens.tokens)[i]? = some (v, c) →
      v.repeated = none →
      (found.captured (i + 1) = none ∧ values.get? v.name = some .null) ∨
        ∃ e w, Regex.read c = .ok e ∧ Encloses e path (i + 1) found ∧ found.captured (i + 1) = some w ∧
          values.get? v.name = some (if w.isEmpty then .null else .str (Text.percentDecode w))

end Route

end Routing
