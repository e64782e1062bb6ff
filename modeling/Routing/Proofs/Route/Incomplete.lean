import Routing.Proofs.Route.Failing
import Routing.Proofs.Route.Rewriting

/-!
# Groups that lack a value

A group that may be absent is left out if one of its variables has no value. It is gone through from left to right all
the same, up to the first such variable: what stands ahead of that one is written, and then thrown away
(`write_eq_ahead`). So the path is that of the route without the group, unless what is ahead cannot be written, and then
it may end with that error (`path_of_incomplete`). A value that its capture refuses is no matter behind the missing
one, and an error ahead of it.
-/

namespace Routing

open Pattern

/-- Whether a token is a variable without a value. -/
def Pattern.Token.lacks (params : Mapping Value) : Token → Bool
  | .variable name _ => (Route.paramValue params name).isNull
  | _ => false

theorem Pattern.Token.lacks_iff {params : Mapping Value} {token : Token} :
    token.lacks params = true ↔ ∃ name c, token = .variable name c ∧ (Route.paramValue params name).isNull = true := by
  cases token <;> simp [lacks]

/-- The tokens ahead of the first variable without a value. -/
def ahead (params : Mapping Value) (ts : List Token) : List Token := ts.takeWhile fun token => !token.lacks params

/-- Whether some tokens become others when a group that may be absent is taken out, wherever it stands. -/
inductive Omits (inner : List Token) : List Token → List Token → Prop
  | here {binds raw rest} : Omits inner (.group .optional binds raw inner :: rest) rest
  | under {suffix binds raw children others rest} (h : Omits inner children others) :
    Omits inner (.group suffix binds raw children :: rest) (.group suffix binds raw others :: rest)
  | later {token rest others} (h : Omits inner rest others) : Omits inner (token :: rest) (token :: others)

/-- The route with other tokens to write its paths from. -/
def Route.withTokens (r : Route) (ts : List Token) : Route :=
  { r with pattern := { r.pattern with tokens := { r.pattern.tokens with tokens := ts } } }

namespace Omits

variable {inner ts others : List Token}

theorem groupsAll {p : Suffix → Option Text → Text → List Token → Prop} (h : Omits inner ts others)
    (hts : GroupsAll p ts) : GroupsAll p inner := by
  induction h with
  | here =>
    rw [GroupsAll] at hts
    exact hts.2.1
  | under _ ih =>
    rw [GroupsAll] at hts
    exact ih hts.2.1
  | @later token _ _ _ ih => cases token <;> simp_all [GroupsAll]

theorem namesOf_sublist (h : Omits inner ts others) : (namesOf inner).Sublist (namesOf ts) := by
  induction h with
  | here => exact List.sublist_append_left _ _
  | under _ ih => exact ih.trans (List.sublist_append_left _ _)
  | later _ ih => exact ih.trans (List.sublist_append_right _ _)

end Omits

/-! ### Same results -/

/-- Whether two results are the same, or the first one is the error of a third. -/
def SameUnless (failing a b : Except RouteError Text) : Prop := a = b ∨ ∃ e, failing = .error e ∧ a = .error e

namespace SameUnless

variable {failing a b : Except RouteError Text}

theorem refl (failing a : Except RouteError Text) : SameUnless failing a a := Or.inl rfl

theorem bind_left (h : SameUnless failing a b) (f : Text → Except RouteError Text) :
    SameUnless failing (a >>= f) (b >>= f) := by
  rcases h with rfl | ⟨e, hfailing, rfl⟩
  · exact .refl _ _
  · exact Or.inr ⟨e, hfailing, rfl⟩

theorem bind_right {f g : Text → Except RouteError Text} (h : ∀ t, SameUnless failing (f t) (g t)) :
    SameUnless failing (a >>= f) (a >>= g) := by
  cases a with
  | error e => exact .refl _ _
  | ok t => exact h t

theorem map (h : SameUnless failing a b) (f : Text → Text) : SameUnless failing (a.map f) (b.map f) := by
  rcases h with rfl | ⟨e, hfailing, rfl⟩
  · exact .refl _ _
  · exact Or.inr ⟨e, hfailing, rfl⟩

end SameUnless

/-! ### Writing level by level -/

namespace PathFor

variable {w : PathFor} {params : Mapping Value} {absentAllowed : Bool} {inner ts others : List Token}

/-- A token that is not without a value is written, and then those behind it. -/
theorem exists_write_cons (w : PathFor) (absentAllowed : Bool) {token : Token} (h : token.lacks params = false) :
    ∃ x, ∀ before rest, w.write absentAllowed params before (token :: rest) =
      x >>= fun t => w.write absentAllowed params (before ++ t) rest := by
  match token, h with
  | .literal text, _ => exact ⟨.ok text, fun before rest => by rw [write]; rfl⟩
  | .variable name c, h =>
    refine ⟨writeValue name c (Route.paramValue params name), fun before rest => ?_⟩
    rw [Token.lacks, Route.paramValue] at h
    rw [write, Route.paramValue]
    cases hget : params.get? name with
    | none =>
      rw [hget] at h
      cases h
    | some value =>
      rw [hget] at h
      cases value with
      | null => cases h
      | _ => rfl
  | .group suffix binds raw children, _ =>
    cases binds with
    | none => exact ⟨w.write suffix.mayBeAbsent params [] children, fun before rest => by rw [write]⟩
    | some name =>
      refine ⟨if ((params.get? name).getD .null).items.isEmpty && !suffix.mayBeAbsent then .error (w.missing name) else
        writeEach (fun item => w.write suffix.mayBeAbsent (params.put name item) [] children)
          ((params.get? name).getD .null).items, fun before rest => ?_⟩
      rw [write]
      split <;> rfl

/-- A level with a variable that has no value is left out, after what is ahead of it was written. -/
theorem write_eq_ahead (w : PathFor) {name c : Text} (hmem : .variable name c ∈ ts)
    (hnull : (Route.paramValue params name).isNull = true) (before : Text) :
    w.write true params before ts = (w.write true params before (ahead params ts)).map fun _ => [] := by
  induction ts generalizing before with
  | nil => cases hmem
  | cons token rest ih =>
    cases hlacks : token.lacks params with
    | true =>
      have hnone : ahead params (token :: rest) = [] := List.takeWhile_cons_of_neg (by simp [hlacks])
      obtain ⟨other, capture, rfl, hother⟩ := Token.lacks_iff.mp hlacks
      rw [hnone, write_missing hother, write]
      rfl
    | false =>
      have hrest : .variable name c ∈ rest := by
        refine (List.mem_cons.mp hmem).resolve_left ?_
        rintro rfl
        exact Bool.false_ne_true (hlacks.symm.trans hnull)
      have hahead : ahead params (token :: rest) = token :: ahead params rest :=
        List.takeWhile_cons_of_pos (by simp [hlacks])
      obtain ⟨x, hx⟩ := exists_write_cons w true hlacks
      rw [hahead, hx, hx]
      cases x with
      | error e => rfl
      | ok t => exact ih hrest (before ++ t)

/-- Taking a token out behind another one. -/
theorem sameUnless_later {failing : Except RouteError Text} (token : Token)
    (h : ∀ before, SameUnless failing (w.write absentAllowed params before ts) (w.write absentAllowed params before others))
    (before : Text) :
    SameUnless failing (w.write absentAllowed params before (token :: ts))
      (w.write absentAllowed params before (token :: others)) := by
  cases hlacks : token.lacks params with
  | false =>
    obtain ⟨x, hx⟩ := exists_write_cons w absentAllowed hlacks
    rw [hx, hx]
    exact .bind_right fun t => h (before ++ t)
  | true =>
    -- nothing behind a variable without a value is gone through
    obtain ⟨name, c, rfl, hnull⟩ := Token.lacks_iff.mp hlacks
    rw [write_missing hnull, write_missing hnull]
    exact .refl _ _

/-- A group that lacks a value may be taken out, wherever it stands, unless what is ahead of the value fails. -/
theorem sameUnless_of_omits {delimiter : Text} (hts : GroupsAll (FaithfulGroup delimiter) ts) (hone : OneEach ts)
    (h : Omits inner ts others) {name c : Text} (hmem : .variable name c ∈ inner)
    (hnull : (Route.paramValue params name).isNull = true) (before : Text) :
    SameUnless (w.write true params [] (ahead params inner)) (w.write absentAllowed params before ts)
      (w.write absentAllowed params before others) := by
  induction h generalizing absentAllowed before with
  | @here binds raw rest =>
    rw [GroupsAll] at hts
    obtain rfl : binds = none := hts.1.binds
    rw [write, show Suffix.optional.mayBeAbsent = true from rfl, write_eq_ahead w hmem hnull]
    cases hahead : w.write true params [] (ahead params inner) with
    | error e => exact Or.inr ⟨e, rfl, rfl⟩
    | ok t => exact Or.inl (congrArg (w.write absentAllowed params · rest) (List.append_nil before))
  | @under suffix binds raw children others rest hinner ih =>
    rw [GroupsAll] at hts
    rw [OneEach] at hone
    cases hrepeats : suffix.repeats with
    | false =>
      obtain rfl : suffix = .optional := by cases suffix <;> first | rfl | cases hrepeats
      obtain rfl : binds = none := hts.1.binds
      rw [write, write]
      exact (ih hts.2.1 (by simpa [hrepeats] using hone.1) []).bind_left _
    | true =>
      -- the variable is the one that the rounds are written for, so there are none
      have hname : name ∈ namesOf children := by
        obtain ⟨before, after, rfl⟩ := List.append_of_mem hmem
        exact hinner.namesOf_sublist.subset (by simp [namesOf_append, namesOf, Token.names])
      have hbinds : binds = some name := by
        have hlength : (namesOf children).length ≤ 1 := by simpa [hrepeats] using hone.1
        rw [hts.1.binds, if_pos (by cases suffix <;> simp [Suffix.repeats] at hrepeats ⊢)]
        obtain ⟨other, hother⟩ := List.length_eq_one_iff.mp (Nat.le_antisymm hlength (List.length_pos_of_mem hname))
        rw [hother, List.mem_singleton] at hname
        rw [hother, hname]
        rfl
      have hitems : ((params.get? name).getD .null).items = [] := by
        rw [Route.paramValue] at hnull
        cases hvalue : (params.get? name).getD .null <;> simp_all [Value.isNull, Value.items]
      rw [hbinds, write, write, hitems]
      exact .refl _ _
  | @later token rest others _ ih =>
    refine sameUnless_later token (fun before => ih ?_ ?_ before) before
    · cases token <;> simp_all [GroupsAll]
    · cases token <;> simp_all [OneEach]

end PathFor

/-! ### Paths -/

namespace Route

variable {r : Route} {params : Mapping Value} {inner others : List Token}

/-- What cannot be written ahead of a missing value is a fault of the tokens there. -/
theorem fault_of_ahead (hr : r.IsMade) (h : Omits inner r.pattern.tokens.tokens others) {w : PathFor}
    {absentAllowed : Bool} {before : Text} {e : RouteError}
    (herror : w.write absentAllowed params before (ahead params inner) = .error e) :
    PathFor.Fault w none (ahead params inner) e := by
  have hinner := h.groupsAll (faithfulGroup_of_tokenize hr.assigned.tokens)
  have hsplit : ahead params inner ++ inner.dropWhile (fun token => !token.lacks params) = inner :=
    List.takeWhile_append_dropWhile
  rw [← hsplit, groupsAll_append] at hinner
  exact PathFor.error_of_write hinner.1 herror

/-- A group that may be absent is left out of a path, wherever it stands, if one of its variables has no value: the path
is that of the route without the group. This is so for all values behind the missing one, and for those ahead of it if
they can be written. If what is ahead cannot be written, the path may end with an error of it. A round of a group around
leaves the group out in the same way. -/
theorem path_of_incomplete (hr : r.IsMade) (h : Omits inner r.pattern.tokens.tokens others) {name c : Text}
    (hmem : .variable name c ∈ inner) :
    (∀ w : PathFor, ∀ m : Mapping Value, (paramValue m name).isNull = true → ∀ before,
      w.write true m before inner = (w.write true m before (ahead m inner)).map fun _ => []) ∧
    ∀ params, (paramValue (r.defaults.putAll params) name).isNull = true →
      (∀ t, PathFor.write ⟨r.name, r.pattern.path⟩ true (r.defaults.putAll params) []
          (ahead (r.defaults.putAll params) inner) = .ok t →
        r.path params = (r.withTokens others).path params) ∧
      ∀ e, PathFor.write ⟨r.name, r.pattern.path⟩ true (r.defaults.putAll params) []
          (ahead (r.defaults.putAll params) inner) = .error e →
        PathFor.Fault ⟨r.name, r.pattern.path⟩ none (ahead (r.defaults.putAll params) inner) e ∧
          (r.path params = .error e ∨ r.path params = (r.withTokens others).path params) := by
  refine ⟨fun w m hnull before => w.write_eq_ahead hmem hnull before, fun params hnull => ?_⟩
  have hsame : SameUnless _ (r.path params) ((r.withTokens others).path params) :=
    (PathFor.sameUnless_of_omits (w := ⟨r.name, r.pattern.path⟩)
      (faithfulGroup_of_tokenize hr.assigned.tokens) (oneEach_of_tokensRule hr.assigned.rule) h hmem hnull []).map _
  refine ⟨fun t ht => ?_, fun e he => ⟨fault_of_ahead hr h he, ?_⟩⟩
  · rcases hsame with hsame | ⟨e, herror, -⟩
    · exact hsame
    · rw [ht] at herror
      cases herror
  · rcases hsame with hsame | ⟨e', herror, hpath⟩
    · exact Or.inr hsame
    · rw [he, Except.error.injEq] at herror
      exact Or.inl (herror ▸ hpath)

/-- In `post[/{a:\w+}[-{tab:\w+}/{id:\d+}]]` the value of `id` is behind the missing one of `tab`, so it is no matter
that its capture refuses it. -/
theorem refused_value_behind_missing_one :
    ∃ (r : Route) (inner others : List Token) (params : Mapping Value), r.IsMade ∧
      r.pattern.path = "post[/\x7ba:\\w+\x7d[-\x7btab:\\w+\x7d/\x7bid:\\d+\x7d]]".toList ∧
      Omits inner r.pattern.tokens.tokens others ∧ .variable "tab".toList "\\w+".toList ∈ inner ∧
      params = ⟨[(['a'], .str ['x']), ("id".toList, .str "abc".toList)]⟩ ∧
      (paramValue (r.defaults.putAll params) "tab".toList).isNull = true ∧
      r.path params = (r.withTokens others).path params ∧ r.path params = .ok "/post/x".toList := by
  have hrun : (RoutePattern.ofText ['/']
      "post[/\x7ba:\\w+\x7d[-\x7btab:\\w+\x7d/\x7bid:\\d+\x7d]]".toList).Gives fun p =>
      p.path = "post[/\x7ba:\\w+\x7d[-\x7btab:\\w+\x7d/\x7bid:\\d+\x7d]]".toList ∧
      p.tokens.tokens = [.literal "post".toList,
        .group .optional none "/\x7ba:\\w+\x7d[-\x7btab:\\w+\x7d/\x7bid:\\d+\x7d]".toList
          [.literal ['/'], .variable ['a'] "\\w+".toList,
            .group .optional none "-\x7btab:\\w+\x7d/\x7bid:\\d+\x7d".toList
              [.literal ['-'], .variable "tab".toList "\\w+".toList, .literal ['/'],
                .variable "id".toList "\\d+".toList]]] ∧
      Route.path { id := 0, delimiter := ['/'], pattern := p }
        ⟨[(['a'], .str ['x']), ("id".toList, .str "abc".toList)]⟩ = .ok "/post/x".toList := by
    cbv
    trivial
  obtain ⟨p, hp, hpath, htokens, hwritten⟩ := Traced.exists_of_gives hrun
  let r : Route := { id := 0, delimiter := ['/'], pattern := p }
  have hr : r.IsMade := ⟨_, hp⟩
  let inner : List Token := [.literal ['-'], .variable "tab".toList "\\w+".toList, .literal ['/'],
    .variable "id".toList "\\d+".toList]
  let params : Mapping Value := ⟨[(['a'], .str ['x']), ("id".toList, .str "abc".toList)]⟩
  obtain ⟨others, homits⟩ : ∃ others, Omits inner r.pattern.tokens.tokens others := by
    rw [htokens]
    exact ⟨_, .later (.under (.later (.later .here)))⟩
  have hmem : .variable "tab".toList "\\w+".toList ∈ inner := by simp [inner]
  have hnull : (paramValue (Mapping.empty.putAll params) "tab".toList).isNull = true := by
    dsimp only [params]
    cbv
  have hahead : ahead (Mapping.empty.putAll params) inner = [.literal ['-']] := by
    dsimp only [params, inner]
    cbv
  have hwrite : PathFor.write ⟨r.name, r.pattern.path⟩ true (Mapping.empty.putAll params) []
      (ahead (Mapping.empty.putAll params) inner) = .ok ['-'] := by
    rw [hahead, PathFor.write, PathFor.write]
    rfl
  obtain ⟨-, hleft⟩ := path_of_incomplete hr homits hmem
  exact ⟨r, inner, others, params, hr, hpath, homits, hmem, rfl, hnull, (hleft params hnull).1 _ hwrite, hwritten⟩

/-- In `post[/{id:\d+}/{tab:\w+}]` the value of `id` is ahead of the missing one of `tab`, and ends the path with an
error. The other way round it is no matter. -/
theorem refused_value_ahead_of_missing_one :
    ∃ (r swapped : Route) (inner others : List Token) (params : Mapping Value), r.IsMade ∧ swapped.IsMade ∧
      r.pattern.path = "post[/\x7bid:\\d+\x7d/\x7btab:\\w+\x7d]".toList ∧
      swapped.pattern.path = "post[/\x7btab:\\w+\x7d/\x7bid:\\d+\x7d]".toList ∧
      Omits inner r.pattern.tokens.tokens others ∧ .variable "tab".toList "\\w+".toList ∈ inner ∧
      params = ⟨[("id".toList, .str "abc".toList)]⟩ ∧
      (paramValue (r.defaults.putAll params) "tab".toList).isNull = true ∧
      r.path params = .error (.mismatch "id".toList "\\d+".toList "abc".toList) ∧
      (r.withTokens others).path params = .ok "/post".toList ∧ swapped.path params = .ok "/post".toList := by
  have hrun : (RoutePattern.ofText ['/'] "post[/\x7bid:\\d+\x7d/\x7btab:\\w+\x7d]".toList).Gives fun p =>
      p.path = "post[/\x7bid:\\d+\x7d/\x7btab:\\w+\x7d]".toList ∧
      p.tokens.tokens = [.literal "post".toList,
        .group .optional none "/\x7bid:\\d+\x7d/\x7btab:\\w+\x7d".toList
          [.literal ['/'], .variable "id".toList "\\d+".toList, .literal ['/'],
            .variable "tab".toList "\\w+".toList]] ∧
      Route.path { id := 0, delimiter := ['/'], pattern := p } ⟨[("id".toList, .str "abc".toList)]⟩ =
        .error (.mismatch "id".toList "\\d+".toList "abc".toList) := by
    cbv
    trivial
  have hswapped : (RoutePattern.ofText ['/'] "post[/\x7btab:\\w+\x7d/\x7bid:\\d+\x7d]".toList).Gives fun p =>
      p.path = "post[/\x7btab:\\w+\x7d/\x7bid:\\d+\x7d]".toList ∧
      Route.path { id := 0, delimiter := ['/'], pattern := p } ⟨[("id".toList, .str "abc".toList)]⟩ =
        .ok "/post".toList := by
    cbv
  obtain ⟨p, hp, hpath, htokens, herror⟩ := Traced.exists_of_gives hrun
  obtain ⟨q, hq, hqpath, hqwritten⟩ := Traced.exists_of_gives hswapped
  let r : Route := { id := 0, delimiter := ['/'], pattern := p }
  have homits : Omits [.literal ['/'], .variable "id".toList "\\d+".toList, .literal ['/'],
      .variable "tab".toList "\\w+".toList] r.pattern.tokens.tokens [.literal "post".toList] := by
    rw [htokens]
    exact .later .here
  have hnull : (paramValue (Mapping.empty.putAll ⟨[("id".toList, .str "abc".toList)]⟩) "tab".toList).isNull = true := by
    cbv
  have hwithout : (r.withTokens [.literal "post".toList]).path ⟨[("id".toList, .str "abc".toList)]⟩ =
      .ok "/post".toList := by
    rw [path, text, withTokens, PathFor.write, PathFor.write]
    cbv
  exact ⟨r, { id := 0, delimiter := ['/'], pattern := q }, _, _, _, ⟨_, hp⟩, ⟨_, hq⟩, hpath, hqpath, homits, by simp, rfl,
    hnull, herror, hwithout, hqwritten⟩

end Route

end Routing
