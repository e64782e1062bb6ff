import Routing.Proofs.Pattern.Composing
import Routing.Proofs.Pattern.Faithful
import Routing.Proofs.Route.WrittenWords
import Routing.Transition

/-!
# Why a path is not written

A path ends with an error where a variable has no value, or where its capture does not take the coded form of its value
(`PathFor.Fault`). Other errors come from a capture that is read by itself for the first time there. It was read as a
part of the expression of its route, and a text that is an expression among others need not be one by itself: a
reference to the capture of another variable is none (`path_of_reference_fails`). Where all captures are expressions by
themselves, and give back what they take, there are no other errors (`path_fails`).
-/

namespace Routing

open Pattern

/-- Whether an error says that a path cannot be written for the values that are given. -/
def RouteError.isUnwritten : RouteError → Bool
  | .missingParameter _ _ _ => true
  | .mismatch _ _ _ => true
  | _ => false

/-- Whether a capture is an expression by itself that gives back what it takes. -/
def IsSoundCapture (c : Text) : Prop := ∃ e, Regex.read c = .ok e ∧ e.hasPossessive = false

/-- The errors that a path may end with, given its tokens. `inside` is the pattern of the repeated group around
them. -/
inductive PathFor.Fault (w : PathFor) (inside : Option Text) (ts : List Token) : RouteError → Prop
  /-- A variable has no value. -/
  | missing {name} (hname : name ∈ namesOf ts) : Fault w inside ts (w.missing name)
  /-- A capture does not take the coded form of a value. -/
  | mismatch {v c value} (hmem : (v, c) ∈ boundOf inside ts) (hvalue : encodeValue value ∉ takenBy c) :
    Fault w inside ts (.mismatch v.name c (encodeValue value))
  /-- A capture is no expression by itself. -/
  | unread {c e} (hmem : c ∈ capturesOf ts) (hread : readRegex c = .error e) : Fault w inside ts e
  /-- A possessive loop of a capture keeps an end of a group before its start. -/
  | crossed {c e} (hmem : c ∈ capturesOf ts) (hread : Regex.read c = .ok e) (hpossessive : e.hasPossessive = true) :
    Fault w inside ts .crossedCapture

namespace PathFor

variable {w : PathFor} {inside : Option Text} {ts : List Token} {e : RouteError}

namespace Fault

/-- An error among some tokens is one among more tokens. -/
theorem mono {outside : Option Text} {more : List Token} (h : Fault w inside ts e)
    (hbound : ∀ b ∈ boundOf inside ts, b ∈ boundOf outside more) : Fault w outside more e := by
  have hcaptures : ∀ c ∈ capturesOf ts, c ∈ capturesOf more := by
    rw [← map_snd_boundOf inside, List.forall_mem_map]
    exact fun b hb => mem_capturesOf (hbound b hb)
  cases h with
  | missing hname =>
    obtain ⟨b, hb, rfl⟩ := exists_mem_boundOf inside hname
    exact .missing (mem_namesOf (hbound b hb))
  | mismatch hmem hvalue => exact .mismatch (hbound _ hmem) hvalue
  | unread hmem hread => exact .unread (hcaptures _ hmem) hread
  | crossed hmem hread hpossessive => exact .crossed (hcaptures _ hmem) hread hpossessive

/-- With sound captures a path ends for its values only. -/
theorem isUnwritten (h : Fault w inside ts e) (hsound : ∀ c ∈ capturesOf ts, IsSoundCapture c) :
    e.isUnwritten = true := by
  cases h with
  | missing => rfl
  | mismatch => rfl
  | unread hmem hread =>
    obtain ⟨r, hr, -⟩ := hsound _ hmem
    rw [readRegex_eq_ok.mpr hr] at hread
    cases hread
  | crossed hmem hread hpossessive =>
    obtain ⟨r, hr, hnone⟩ := hsound _ hmem
    rw [hr, Except.ok.injEq] at hread
    rw [← hread, hnone] at hpossessive
    cases hpossessive

end Fault

/-- The value of a variable is refused by its capture, or the capture cannot be used by itself. -/
theorem error_of_writeValue {v : Variable} {c : Text} {value : Value} (hmem : (v, c) ∈ boundOf inside ts)
    (h : writeValue v.name c value = .error e) : Fault w inside ts e := by
  rw [writeValue] at h
  rcases bind_eq_error.mp h with hread | ⟨r, hread, h⟩
  · exact .unread (mem_capturesOf hmem) hread
  rw [readRegex_eq_ok] at hread
  rcases bind_eq_error.mp h with hcrossed | ⟨found, hfound, h⟩
  · cases hpossessive : r.hasPossessive with
    | false =>
      rw [Regex.sound_matchWhole hpossessive] at hcrossed
      cases hcrossed
    | true =>
      rw [sound] at hcrossed
      split at hcrossed
      · rw [← Except.error.inj hcrossed]
        exact .crossed (mem_capturesOf hmem) hread hpossessive
      · cases hcrossed
  · cases found with
    | some found => cases h
    | none =>
      rw [← Except.error.inj h]
      refine .mismatch hmem ?_
      rintro ⟨r', found, hread', hfound'⟩
      rw [hread, Except.ok.injEq] at hread'
      rw [← hread', hfound] at hfound'
      cases hfound'

theorem error_of_writeEach {write : Value → Except RouteError Text} {items : List Value}
    (h : writeEach write items = .error e) : ∃ item ∈ items, write item = .error e := by
  induction items with
  | nil => cases h
  | cons item items ih =>
    rw [writeEach] at h
    rcases bind_eq_error.mp h with hitem | ⟨t, -, h⟩
    · exact ⟨item, List.mem_cons_self, hitem⟩
    rcases bind_eq_error.mp h with hrest | ⟨others, -, h⟩
    · obtain ⟨other, hother, herror⟩ := ih hrest
      exact ⟨other, List.mem_cons_of_mem item hother, herror⟩
    · cases h

/-- An error of the tokens of a pattern comes from one of its variables. -/
theorem error_of_write {delimiter : Text} (hts : GroupsAll (FaithfulGroup delimiter) ts) {absentAllowed : Bool}
    {params : Mapping Value} {before : Text} (h : w.write absentAllowed params before ts = .error e) :
    Fault w inside ts e := by
  induction ts using tokens_induction generalizing inside absentAllowed params before with
  | nil => simp [write] at h
  | literal text rest ih =>
    rw [write] at h
    rw [GroupsAll] at hts
    exact (ih hts h).mono fun b hb => by rwa [boundOf]
  | var name c rest ih =>
    rw [GroupsAll] at hts
    have hrest {before : Text} (h : w.write absentAllowed params before rest = .error e) :
        Fault w inside (.variable name c :: rest) e :=
      (ih hts h).mono fun b hb => by
        rw [boundOf]
        exact List.mem_cons_of_mem _ hb
    have hmissing {e' : RouteError} (h : (if absentAllowed then .ok [] else .error (w.missing name)) =
        (.error e' : Except RouteError Text)) : Fault w inside (.variable name c :: rest) e' := by
      split at h
      · cases h
      · rw [← Except.error.inj h]
        exact .missing (by simp [namesOf, Token.names])
    rw [write] at h
    split at h
    · exact hmissing h
    · exact hmissing h
    · rcases bind_eq_error.mp h with hvalue | ⟨t, -, h⟩
      · exact @error_of_writeValue w inside _ _ ⟨name, inside⟩ c _ (by simp [boundOf]) hvalue
      · exact hrest h
  | group suffix binds raw children rest ihc ih =>
    rw [GroupsAll] at hts
    obtain ⟨hgroup, hchildren, htail⟩ := hts
    have hinner {params : Mapping Value} (h : w.write suffix.mayBeAbsent params [] children = .error e) :
        Fault w inside (.group suffix binds raw children :: rest) e := by
      have hfault : Fault w (within inside suffix raw) children e := ihc hchildren h
      refine hfault.mono fun b hb => ?_
      rw [boundOf]
      exact List.mem_append_left _ hb
    have hrest {before : Text} (h : w.write absentAllowed params before rest = .error e) :
        Fault w inside (.group suffix binds raw children :: rest) e :=
      (ih htail h).mono fun b hb => by
        rw [boundOf]
        exact List.mem_append_right _ hb
    cases binds with
    | none =>
      rw [write] at h
      rcases bind_eq_error.mp h with hwrite | ⟨t, -, h⟩
      · exact hinner hwrite
      · exact hrest h
    | some name =>
      -- the group takes its items from a variable that is in it
      have hname : name ∈ namesOf children := by
        have hlast := hgroup.binds
        split at hlast
        · exact List.mem_of_getLast? hlast.symm
        · cases hlast
      rw [write] at h
      split at h
      · obtain rfl : w.missing name = e := Except.error.inj h
        exact .missing (by simp [namesOf, Token.names, hname])
      · rcases bind_eq_error.mp h with heach | ⟨t, -, h⟩
        · obtain ⟨item, -, hitem⟩ := error_of_writeEach heach
          exact hinner hitem
        · exact hrest h

end PathFor

namespace Route

variable {r : Route}

theorem fault_of_path {delimiter : Text} (hts : GroupsAll (FaithfulGroup delimiter) r.pattern.tokens.tokens)
    {params : Mapping Value} {e : RouteError} (h : r.path params = .error e) :
    PathFor.Fault ⟨r.name, r.pattern.path⟩ none r.pattern.tokens.tokens e := by
  rw [path, text] at h
  cases hwrite : PathFor.write ⟨r.name, r.pattern.path⟩ false (r.defaults.putAll params) [] r.pattern.tokens.tokens with
  | ok t =>
    rw [hwrite] at h
    cases h
  | error e' =>
    rw [hwrite] at h
    obtain rfl : e' = e := Except.error.inj h
    exact PathFor.error_of_write hts hwrite

theorem error_of_path (hr : r.IsMade) {params : Mapping Value} {e : RouteError} (h : r.path params = .error e) :
    PathFor.Fault ⟨r.name, r.pattern.path⟩ none r.pattern.tokens.tokens e :=
  fault_of_path (faithfulGroup_of_tokenize hr.assigned.tokens) h

/-- A route is never linked where the capture of a variable that stands outside of all groups is no expression by
itself. -/
theorem path_ne_ok (hr : r.IsMade) {name c : Text} (hmem : .variable name c ∈ r.pattern.tokens.tokens)
    (hread : ∀ e, Regex.read c ≠ .ok e) (params : Mapping Value) (t : Text) : r.path params ≠ .ok t := by
  intro h
  obtain ⟨u, hu, -⟩ := map_eq_ok.mp h
  rcases PathFor.mem_wordsBy_of_write _ (onlyRepeatsBind_of_tokenize hr.assigned.tokens) hu with ⟨u, hword, -⟩ | hfalse
  · have hnone : takenBy c = 0 := by
      ext w
      refine ⟨?_, False.elim⟩
      rintro ⟨e, -, he, -⟩
      exact hread e he
    obtain ⟨before, after, htokens⟩ := List.append_of_mem hmem
    rw [htokens, wordsBy_append, wordsBy, hnone, zero_mul, mul_zero] at hword
    exact hword
  · cases hfalse.1

end Route

/-- The links of a route with sound captures are always compared: one that cannot be written makes them differ. -/
theorem Transition.exists_sameLink (t : Transition) (settings : Settings) {r : Route} {delimiter : Text}
    (hts : GroupsAll (FaithfulGroup delimiter) r.pattern.tokens.tokens)
    (hsound : ∀ c ∈ capturesOf r.pattern.tokens.tokens, IsSoundCapture c) (before : Mapping Value) :
    ∃ same, (t.sameLink settings r before).outcome = .ok same := by
  have hlink : ∀ params e, r.link settings params { scope := t.scope } none = .error e → e.isUnwritten = true := by
    intro params e he
    cases hpath : r.path params with
    | ok path =>
      rw [Route.link, hpath] at he
      cases he
    | error e' =>
      rw [Route.link, hpath] at he
      rw [← Except.error.inj he]
      exact (Route.fault_of_path hts hpath).isUnwritten hsound
  rw [sameLink]
  cases hold : r.link settings before { scope := t.scope } none with
  | error e =>
    have hunwritten := hlink _ _ hold
    cases e with
    | missingParameter | mismatch => exact ⟨false, rfl⟩
    | _ => cases hunwritten
  | ok old =>
    cases hnew : r.link settings t.params { scope := t.scope } none with
    | error e =>
      have hunwritten := hlink _ _ hnew
      cases e with
      | missingParameter | mismatch => exact ⟨false, rfl⟩
      | _ => cases hunwritten
    | ok new => exact ⟨old == new, rfl⟩

end Routing
