import Routing.Proofs.Pattern.Composing
import Routing.Proofs.Pattern.Faithful
import Routing.Proofs.Pattern.Filling
import Routing.Proofs.Pattern.Rounds
import Routing.Proofs.Route.RoundTrip
import Routing.Proofs.Route.WrittenWords

/-!
# Matched values are written again

The values of a match can be written where the captures take their coded forms and no `+` group misses an item. What is
written is composed of these coded forms (`exists_write_of_composes`). It need not be the path that was matched: a group
without a variable is written even where the path is without it, a group whose variable took the empty text is left out,
and a value is coded in one way only.
-/

namespace Routing

open Pattern

namespace Pattern

/-! ### Values of variables -/

/-- Whether the captures among some tokens take the coded form of a value. Those in a repeated group take that of each
item of it. -/
def Accepts : List Token → Value → Prop
  | [], _ => True
  | .literal _ :: rest, value => Accepts rest value
  | .variable _ c :: rest, value => (value.isNull = false ∧ encodeValue value ∈ takenBy c) ∧ Accepts rest value
  | .group _ none _ children :: rest, value => Accepts children value ∧ Accepts rest value
  | .group suffix (some _) _ children :: rest, value =>
    ((value.items = [] → suffix.mayBeAbsent = true) ∧ ∀ item ∈ value.items, Accepts children item) ∧ Accepts rest value

/-- Whether the value of a variable can be written: its capture takes the coded form of it, unless it is null. In a
repeated group that is so for each item. -/
def IsCoded (delimiter : Text) (v : Variable) (c : Text) (value : Value) : Prop :=
  match v.repeated with
  | none => value.isNull = false → encodeValue value ∈ takenBy c
  | some raw => ∀ children, tokenize delimiter raw = .ok ⟨raw, children⟩ → ∀ item ∈ value.items, Accepts children item

section Accepts

variable {delimiter : Text} {ts : List Token}

/-- The tokens of a repeated group without variables have nothing to take. -/
theorem binds_of_namesOf {suffix : Suffix} {binds : Option Text} {raw : Text}
    (hgroup : FaithfulGroup delimiter suffix binds raw ts) (hnames : namesOf ts = []) : binds = none := by
  rw [hgroup.binds, hnames, List.getLast?_nil, ite_self]

/-- A value is accepted where the captures take it, if no variable is in a repeated group. -/
theorem accepts_of_boundOf (hts : GroupsAll (FaithfulGroup delimiter) ts) {value : Value}
    (hgiven : value.isNull = false)
    (hbound : ∀ b ∈ boundOf none ts, b.1.repeated = none ∧ encodeValue value ∈ takenBy b.2) : Accepts ts value := by
  induction ts using tokens_induction with
  | nil => simp [Accepts]
  | literal text rest ih =>
    rw [GroupsAll] at hts
    rw [boundOf] at hbound
    rw [Accepts]
    exact ih hts hbound
  | var name c rest ih =>
    rw [GroupsAll] at hts
    rw [boundOf, List.forall_mem_cons] at hbound
    rw [Accepts]
    exact ⟨⟨hgiven, hbound.1.2⟩, ih hts hbound.2⟩
  | group suffix binds raw children rest ihc ih =>
    rw [GroupsAll] at hts
    rw [boundOf, List.forall_mem_append] at hbound
    obtain ⟨hgroup, hchildren, hrest⟩ := hts
    have hnone : binds = none ∧ ∀ b ∈ boundOf none children, b.1.repeated = none ∧ encodeValue value ∈ takenBy b.2 := by
      cases hrepeats : suffix.repeats with
      | false =>
        obtain rfl : suffix = .optional := by cases suffix <;> first | rfl | cases hrepeats
        exact ⟨hgroup.binds, hbound.1⟩
      | true =>
        -- a repeated group has no variables here
        have hnames : namesOf children = [] := by
          rw [← List.length_eq_zero_iff, ← length_boundOf (some raw), List.length_eq_zero_iff,
            List.eq_nil_iff_forall_not_mem]
          intro b hb
          have hmem : b ∈ boundOf (within none suffix raw) children := by
            rwa [within, if_pos hrepeats, Option.none_or]
          have hsome := repeated_of_mem_boundOf hb
          rw [(hbound.1 b hmem).1] at hsome
          cases hsome
        refine ⟨binds_of_namesOf hgroup hnames, ?_⟩
        rw [boundOf_of_namesOf _ hnames]
        exact List.forall_mem_nil _
    rw [hnone.1, Accepts]
    exact ⟨ihc hchildren hnone.2, ih hrest hbound.2⟩

end Accepts

/-! ### Groups -/

/-- Whether something holds of every group that is not in a repeated group, nor in one without a text. -/
def OuterAll (σ : Text → Option Text) (p : Suffix → List Token → Prop) : List Token → Prop
  | [] => True
  | .literal _ :: rest => OuterAll σ p rest
  | .variable _ _ :: rest => OuterAll σ p rest
  | .group suffix _ _ children :: rest =>
    p suffix children ∧ (suffix = .optional → (∃ name ∈ namesOf children, σ name ≠ none) → OuterAll σ p children) ∧
      OuterAll σ p rest

theorem outerAll_of_forall {p : Suffix → List Token → Prop} (h : ∀ suffix children, p suffix children)
    (σ : Text → Option Text) (ts : List Token) : OuterAll σ p ts := by
  induction ts using tokens_induction <;> simp_all [OuterAll]

/-- Whether no `+` group is without an item where these tokens are those of a group that is left out. What comes after a
variable without a value is not reached then. -/
def Quiet (params : Mapping Value) : List Token → Prop
  | [] => True
  | .literal _ :: rest => Quiet params rest
  | .variable name _ :: rest => (Route.paramValue params name).isNull = true ∨ Quiet params rest
  | .group suffix _ _ children :: rest =>
    (suffix = .plus → ∀ name ∈ namesOf children, Route.isAbsent (Route.paramValue params name) = false) ∧
      (suffix = .optional → Quiet params children) ∧ Quiet params rest

/-- Whether a round is never empty, and always has a text for a variable. -/
structure IsSolid (delimiter name : Text) (children : List Token) : Prop where
  /-- Runs are cut at slashes. -/
  delimiter : delimiter = ['/']
  nonempty : [] ∉ wordsBy takenBy children
  taken : ∀ σ t, Composes σ children t → σ name ≠ none

/-- Whether a group can be written again after a match that took some texts. -/
structure IsRewritable (delimiter : Text) (params : Mapping Value) (σ : Text → Option Text) (suffix : Suffix)
    (children : List Token) : Prop where
  /-- A `+` group has an item if it took part in the match. Where every round has one, it does. -/
  given : suffix = .plus → ∀ name ∈ namesOf children,
    IsSolid delimiter name children ∨ (σ name ≠ none → Route.isAbsent (Route.paramValue params name) = false)
  /-- A group that took no part in the match is left out again without an error. -/
  quiet : suffix = .optional → (∀ name ∈ namesOf children, σ name = none) → Quiet params children

/-- Whether a variable that took the empty text has no value. A group that it stands in is left out. -/
def LeavesOut (params : Mapping Value) (σ : Text → Option Text) (ts : List Token) : Prop :=
  ∃ name c, .variable name c ∈ ts ∧ σ name = some [] ∧ (Route.paramValue params name).isNull = true

theorem LeavesOut.cons {params : Mapping Value} {σ : Text → Option Text} {ts : List Token}
    (h : LeavesOut params σ ts) (token : Token) : LeavesOut params σ (token :: ts) := by
  obtain ⟨name, c, hmem, hname⟩ := h
  exact ⟨name, c, List.mem_cons_of_mem _ hmem, hname⟩

/-- Whether all variables of a group may miss, if the group is left out. -/
def IsKept (params : Mapping Value) (σ : Text → Option Text) (mayMiss : Text → Prop) (suffix : Suffix)
    (children : List Token) : Prop :=
  suffix = .optional → LeavesOut params σ children → ∀ name ∈ namesOf children, mayMiss name

/-- What is known of a variable after a match that took some texts. -/
structure Leaves (delimiter : Text) (params : Mapping Value) (σ : Text → Option Text) (v : Variable)
    (c : Text) : Prop where
  coded : ∃ value, params.get? v.name = some value ∧ IsCoded delimiter v c value
  given : v.repeated = none → (σ v.name).getD [] ≠ [] → (Route.paramValue params v.name).isNull = false
  solid : ∀ raw children, v.repeated = some raw → tokenize delimiter raw = .ok ⟨raw, children⟩ →
    IsSolid delimiter v.name children → (σ v.name).getD [] ≠ [] →
    Route.isAbsent (Route.paramValue params v.name) = false

/-! ### Written texts -/

/-- The text of some tokens that are all there, with a value for their variables. A repeated group has a round for each
item of it. -/
def filled : List Token → Value → Text
  | [], _ => []
  | .literal text :: rest, value => text ++ filled rest value
  | .variable _ _ :: rest, value => encodeValue value ++ filled rest value
  | .group _ none _ children :: rest, value => filled children value ++ filled rest value
  | .group _ (some _) _ children :: rest, value => value.items.flatMap (filled children ·) ++ filled rest value

/-- The text of a repeated group: a round for each item. -/
def filledRun (children : List Token) (value : Value) : Text := value.items.flatMap (filled children)

/-- Whether a text is what is written for a variable with a value. -/
def IsWrittenFor (delimiter : Text) (v : Variable) (value : Value) (u : Text) : Prop :=
  match v.repeated with
  | none => value.isNull = false ∧ u = encodeValue value
  | some raw => ∃ children, tokenize delimiter raw = .ok ⟨raw, children⟩ ∧ u = filledRun children value

/-- Whether a text is composed of the coded values of some parameters. Groups whose variables may miss may be left
out. -/
inductive Writes (params : Mapping Value) (mayMiss : Text → Prop) : List Token → Text → Prop
  | nil : Writes params mayMiss [] []
  | literal {text rest t} (hrest : Writes params mayMiss rest t) :
    Writes params mayMiss (.literal text :: rest) (text ++ t)
  | var {name c value rest t} (hget : params.get? name = some value) (hgiven : value.isNull = false)
    (hvalue : encodeValue value ∈ takenBy c) (hrest : Writes params mayMiss rest t) :
    Writes params mayMiss (.variable name c :: rest) (encodeValue value ++ t)
  | rounds {suffix binds raw children u rest t} (hrepeats : suffix.repeats = true)
    (hgiven : ∀ name ∈ namesOf children, ∃ value, params.get? name = some value ∧ u = filledRun children value)
    (hu : u ∈ suffix.times (wordsBy takenBy children)) (hrest : Writes params mayMiss rest t) :
    Writes params mayMiss (.group suffix binds raw children :: rest) (u ++ t)
  | absent {binds raw children rest t} (hmiss : ∀ name ∈ namesOf children, mayMiss name)
    (hrest : Writes params mayMiss rest t) : Writes params mayMiss (.group .optional binds raw children :: rest) t
  | present {binds raw children u rest t} (hinner : Writes params mayMiss children u)
    (hrest : Writes params mayMiss rest t) :
    Writes params mayMiss (.group .optional binds raw children :: rest) (u ++ t)

/-- Whether the text of one level is what stands before it and what is composed, or the level is left out. -/
def IsLevel (params : Mapping Value) (mayMiss : Text → Prop) (left : Prop) (ts : List Token) (before x : Text) : Prop :=
  (∃ u, x = before ++ u ∧ Writes params mayMiss ts u) ∨ left ∧ x = []

section IsLevel

variable {params : Mapping Value} {mayMiss : Text → Prop} {left left' : Prop} {rest : List Token} {u t : Text}

theorem IsLevel.cons {token : Token} {before x : Text} (h : IsLevel params mayMiss left rest (before ++ u) x)
    (hleft : left → left')
    (hcons : ∀ t, Writes params mayMiss rest t → Writes params mayMiss (token :: rest) (u ++ t)) :
    IsLevel params mayMiss left' (token :: rest) before x := by
  refine h.imp ?_ (And.imp_left hleft)
  rintro ⟨t, rfl, ht⟩
  exact ⟨u ++ t, List.append_assoc _ _ _, hcons t ht⟩

/-- A group that may be absent is composed like its level, or absent. -/
theorem IsLevel.optional {binds : Option Text} {raw : Text} {children : List Token}
    (h : IsLevel params mayMiss left children [] u) (hmiss : left → ∀ name ∈ namesOf children, mayMiss name)
    (ht : Writes params mayMiss rest t) :
    Writes params mayMiss (.group .optional binds raw children :: rest) (u ++ t) := by
  rcases h with ⟨v, rfl, hv⟩ | ⟨hleft, rfl⟩
  · exact .present hv ht
  · exact .absent (hmiss hleft) ht

end IsLevel

/-- Whether a variable is written with its value, or without one where it may miss. -/
def IsWrittenAs (delimiter : Text) (params : Mapping Value) (mayMiss : Text → Prop) (v : Variable)
    (written : Option Text) : Prop :=
  (written = none ∧ mayMiss v.name) ∨
    ∃ value u, params.get? v.name = some value ∧ written = some u ∧ IsWrittenFor delimiter v value u

/-- A token and others with other variables are composed of the texts of the token and of those of the others. -/
theorem exists_composes_cons {p : Variable → Option Text → Prop} {token : Token} {rest : List Token} {t u : Text}
    (htoken : ∃ σ, Composes σ [token] u ∧ ∀ b ∈ boundOf none [token], p b.1 (σ b.1.name))
    (hrest : ∃ σ, Composes σ rest t ∧ ∀ b ∈ boundOf none rest, p b.1 (σ b.1.name))
    (hnodup : (namesOf (token :: rest)).Nodup) :
    ∃ σ, Composes σ (token :: rest) (u ++ t) ∧ ∀ b ∈ boundOf none (token :: rest), p b.1 (σ b.1.name) := by
  obtain ⟨σ, hσ, hσp⟩ := htoken
  obtain ⟨τ, hτ, hτp⟩ := hrest
  rw [← List.singleton_append, namesOf_append] at hnodup
  let ρ : Text → Option Text := fun name => if name ∈ namesOf [token] then σ name else τ name
  have hsameToken : ∀ name ∈ namesOf [token], ρ name = σ name := fun name hname => if_pos hname
  have hsameRest : ∀ name ∈ namesOf rest, ρ name = τ name := fun name hname =>
    if_neg fun hmem => (List.nodup_append.mp hnodup).2.2 name hmem name hname rfl
  refine ⟨ρ, (hσ.congr hsameToken).append (hτ.congr hsameRest), ?_⟩
  rw [← List.singleton_append, boundOf_append, List.forall_mem_append]
  exact ⟨fun b hb => hsameToken _ (mem_namesOf hb) ▸ hσp b hb, fun b hb => hsameRest _ (mem_namesOf hb) ▸ hτp b hb⟩

/-- Where the variables are distinct, a written text is composed of a text for each of them: that of its value, or none
if it may miss. -/
theorem Writes.exists_composes {delimiter : Text} {params : Mapping Value} {mayMiss : Text → Prop} {ts : List Token}
    {t : Text} (h : Writes params mayMiss ts t) (hts : GroupsAll (FaithfulGroup delimiter) ts)
    (hnodup : (namesOf ts).Nodup) :
    ∃ σ, Composes σ ts t ∧ ∀ b ∈ boundOf none ts, IsWrittenAs delimiter params mayMiss b.1 (σ b.1.name) := by
  induction h with
  | nil => exact ⟨fun _ => none, .nil, fun b hb => by simp [boundOf] at hb⟩
  | literal _ ih =>
    rw [GroupsAll] at hts
    obtain ⟨σ, hσ, hall⟩ := ih hts hnodup
    exact ⟨σ, .literal hσ, by rwa [boundOf]⟩
  | @var name c value rest t hget hgiven hvalue _ ih =>
    rw [GroupsAll] at hts
    have hrest := ih hts (List.nodup_append.mp hnodup).2.1
    have hone : Composes (fun _ => some (encodeValue value)) [.variable name c] (encodeValue value ++ []) :=
      .var rfl hvalue .nil
    rw [List.append_nil] at hone
    refine exists_composes_cons ⟨_, hone, ?_⟩ hrest hnodup
    rw [boundOf, boundOf, List.forall_mem_singleton]
    exact Or.inr ⟨value, _, hget, rfl, hgiven, rfl⟩
  | @rounds suffix binds raw children u rest t hrepeats hgiven hu _ ih =>
    rw [GroupsAll] at hts
    have hrest := ih hts.2.2 (List.nodup_append.mp hnodup).2.1
    have hone : Composes (fun _ => some u) [.group suffix binds raw children] (u ++ []) :=
      .rounds hrepeats (fun _ _ => rfl) hu .nil
    rw [List.append_nil] at hone
    refine exists_composes_cons ⟨_, hone, ?_⟩ hrest hnodup
    rw [boundOf, boundOf, List.append_nil, within, if_pos hrepeats, Option.none_or]
    intro b hb
    obtain ⟨value, hget, hvalue⟩ := hgiven _ (mem_namesOf hb)
    refine Or.inr ⟨value, u, hget, rfl, ?_⟩
    rw [IsWrittenFor, repeated_of_mem_boundOf hb]
    exact ⟨children, hts.1.tokenized, hvalue⟩
  | @absent binds raw children rest t hmiss _ ih =>
    rw [GroupsAll] at hts
    have hrest := ih hts.2.2 (List.nodup_append.mp hnodup).2.1
    have hone : Composes (fun _ => none) [.group .optional binds raw children] [] := .absent (fun _ _ => rfl) .nil
    refine exists_composes_cons ⟨_, hone, ?_⟩ hrest hnodup
    rw [boundOf, boundOf, List.append_nil]
    exact fun b hb => Or.inl ⟨rfl, hmiss _ (mem_namesOf hb)⟩
  | @present binds raw children u rest t _ _ ihinner ih =>
    rw [GroupsAll] at hts
    obtain ⟨hinner, hrest, -⟩ := List.nodup_append.mp hnodup
    obtain ⟨σ, hσ, hall⟩ := ihinner hts.2.1 hinner
    have hone : Composes σ [.group .optional binds raw children] (u ++ []) := .present hσ .nil
    rw [List.append_nil] at hone
    refine exists_composes_cons ⟨σ, hone, ?_⟩ (ih hts.2.2 hrest) hnodup
    rw [boundOf, boundOf, List.append_nil]
    exact hall

end Pattern

/-! ### Writing -/

namespace PathFor

variable {w : PathFor} {delimiter : Text} {params : Mapping Value} {σ : Text → Option Text} {mayMiss : Text → Prop}

/-- A variable with a value that its capture takes. -/
theorem write_variable {name c : Text} {value : Value} (hget : params.get? name = some value)
    (hgiven : value.isNull = false) (hvalue : encodeValue value ∈ takenBy c) (absentAllowed : Bool) (before : Text)
    (rest : List Token) : w.write absentAllowed params before (.variable name c :: rest) =
      w.write absentAllowed params (before ++ encodeValue value) rest := by
  have hwrite := @writeValue_of_encodeValue name c value hvalue
  rw [write, hget]
  cases value with
  | null => cases hgiven
  | _ => simp only [hwrite, bind, Except.bind]

/-- A variable without a value ends its level: nothing is written for it, or it is an error. -/
theorem write_missing {name c : Text} (hnull : (Route.paramValue params name).isNull = true) (absentAllowed : Bool)
    (before : Text) (rest : List Token) : w.write absentAllowed params before (.variable name c :: rest) =
      if absentAllowed then .ok [] else .error (w.missing name) := by
  rw [write]
  cases hget : params.get? name with
  | none => rfl
  | some value =>
    rw [Route.paramValue, hget, Option.getD_some] at hnull
    cases value with
    | null => rfl
    | _ => cases hnull

/-- A group that may be absent is written once, or left out. -/
theorem write_optional {raw x : Text} {children : List Token} (hinner : w.write true params [] children = .ok x)
    (absentAllowed : Bool) (before : Text) (rest : List Token) :
    w.write absentAllowed params before (.group .optional none raw children :: rest) =
      w.write absentAllowed params (before ++ x) rest := by
  rw [write]
  simp only [Suffix.mayBeAbsent, hinner, bind, Except.bind]

/-- A repeated group is written once for each item. -/
theorem write_rounds {suffix : Suffix} {name raw : Text} {children : List Token} {value : Value} {f : Value → Text}
    (hget : params.get? name = some value) (hsome : value.items = [] → suffix.mayBeAbsent = true)
    (heach : ∀ item ∈ value.items, w.write suffix.mayBeAbsent (params.put name item) [] children = .ok (f item))
    (absentAllowed : Bool) (before : Text) (rest : List Token) :
    w.write absentAllowed params before (.group suffix (some name) raw children :: rest) =
      w.write absentAllowed params (before ++ value.items.flatMap f) rest := by
  have hgiven : (value.items.isEmpty && !suffix.mayBeAbsent) = false := by
    cases hitems : value.items with
    | nil => rw [hsome hitems]; rfl
    | cons item items => rfl
  rw [write, hget]
  simp only [Option.getD_some, hgiven, Bool.false_eq_true, if_false, writeEach_eq_ok heach, bind, Except.bind]

/-- Tokens with one variable are all written, where their captures take its value. -/
theorem write_filled {ts : List Token} (hts : GroupsAll (FaithfulGroup delimiter) ts) {name : Text}
    (hnames : ∀ other ∈ namesOf ts, other = name) {value : Value}
    (hget : ∀ other ∈ namesOf ts, params.get? other = some value) (haccepts : Accepts ts value)
    (absentAllowed : Bool) (before : Text) :
    w.write absentAllowed params before ts = .ok (before ++ filled ts value) := by
  induction ts using tokens_induction generalizing absentAllowed params value before with
  | nil => rw [write, filled, List.append_nil]
  | literal text rest ih =>
    rw [GroupsAll] at hts
    rw [Accepts] at haccepts
    rw [write, ih hts hnames hget haccepts, filled, List.append_assoc]
  | var other c rest ih =>
    rw [GroupsAll] at hts
    rw [Accepts] at haccepts
    simp only [namesOf, Token.names, List.singleton_append, List.forall_mem_cons] at hnames hget
    rw [write_variable hget.1 haccepts.1.1 haccepts.1.2, ih hts hnames.2 hget.2 haccepts.2, filled, List.append_assoc]
  | group suffix binds raw children rest ihc ih =>
    rw [GroupsAll] at hts
    obtain ⟨hgroup, hchildren, hrest⟩ := hts
    simp only [namesOf, Token.names, List.forall_mem_append] at hnames hget
    cases binds with
    | none =>
      rw [Accepts] at haccepts
      rw [write, ihc hchildren hnames.1 hget.1 haccepts.1, List.nil_append, filled, ← List.append_assoc]
      exact ih hrest hnames.2 hget.2 haccepts.2 absentAllowed _
    | some other =>
      rw [Accepts] at haccepts
      have hmem : other ∈ namesOf children := by
        have hbinds := hgroup.binds
        split at hbinds
        · exact List.mem_of_getLast? hbinds.symm
        · cases hbinds
      -- the group is written for the one variable that there is
      have heach : ∀ item ∈ value.items, w.write suffix.mayBeAbsent (params.put other item) [] children =
          .ok (filled children item) := fun item hitem => by
        have hput : ∀ n ∈ namesOf children, (params.put other item).get? n = some item := fun n hn => by
          rw [Mapping.get?_put, if_pos ((hnames.1 other hmem).trans (hnames.1 n hn).symm)]
        rw [ihc hchildren hnames.1 hput (haccepts.1.2 item hitem), List.nil_append]
      rw [write_rounds (hget.1 other hmem) haccepts.1.1 heach, ih hrest hnames.2 hget.2 haccepts.2, filled,
        List.append_assoc]

/-- What is written between the brackets of a group is a word of it. -/
theorem isWritten_of_write {suffix : Suffix} {binds : Option Text} {raw : Text} {children : List Token}
    (hgroup : FaithfulGroup delimiter suffix binds raw children) {absentAllowed : Bool} {params : Mapping Value}
    {t : Text} (h : w.write absentAllowed params [] children = .ok t) :
    IsWritten absentAllowed (wordsBy takenBy children) t :=
  (mem_wordsBy_of_write w (onlyRepeatsBind_of_tokenize hgroup.tokenized) h).imp_left fun ⟨_, hu, ht⟩ => ht ▸ hu

/-- A repeated group is written, with its items or without variables. -/
theorem exists_write_rounds {suffix : Suffix} {binds : Option Text} {raw : Text} {children : List Token}
    (hrepeats : suffix.repeats = true) (hgroup : FaithfulGroup delimiter suffix binds raw children)
    (hone : (namesOf children).length ≤ 1)
    (hcoded : ∀ b ∈ boundOf (some raw) children, ∃ value, params.get? b.1.name = some value ∧
      IsCoded delimiter b.1 b.2 value)
    (hplus : suffix = .plus → ∀ name ∈ namesOf children, Route.isAbsent (Route.paramValue params name) = false) :
    ∃ u ∈ suffix.times (wordsBy takenBy children),
      (∀ name ∈ namesOf children, ∃ value, params.get? name = some value ∧ u = filledRun children value) ∧
      ∀ absentAllowed before rest, w.write absentAllowed params before (.group suffix binds raw children :: rest) =
        w.write absentAllowed params (before ++ u) rest := by
  have hchildren := faithfulGroup_of_tokenize hgroup.tokenized
  rcases Nat.le_one_iff_eq_zero_or_eq_one.mp hone with hnone | hsingle
  · -- without variables it does not matter which value there is
    have hnames := List.eq_nil_of_length_eq_zero hnone
    have haccepts : Accepts children (.str []) :=
      accepts_of_boundOf hchildren rfl (by rw [boundOf_of_namesOf _ hnames]; exact List.forall_mem_nil _)
    have hinner := @write_filled w _ params _ hchildren [] (by simp [hnames]) _ (by simp [hnames]) haccepts
      suffix.mayBeAbsent []
    refine ⟨_, mem_times_of_isWritten (isWritten_of_write hgroup hinner), by simp [hnames], fun _ _ _ => ?_⟩
    rw [binds_of_namesOf hgroup hnames, write, hinner]
    rfl
  · obtain ⟨name, hname⟩ := List.length_eq_one_iff.mp hsingle
    have hbinds : binds = some name := by
      rw [hgroup.binds, if_pos (by cases suffix <;> simp [Suffix.repeats] at hrepeats ⊢), hname]
      rfl
    obtain ⟨b, hb, hbname⟩ := exists_mem_boundOf (some raw) (hname ▸ List.mem_singleton_self name)
    obtain ⟨value, hget, hvalue⟩ := hcoded b hb
    rw [hbname] at hget
    rw [IsCoded, repeated_of_mem_boundOf hb] at hvalue
    have heach : ∀ item ∈ value.items, w.write suffix.mayBeAbsent (params.put name item) [] children =
        .ok (filled children item) := fun item hitem => by
      have hput : (params.put name item).get? name = some item := by rw [Mapping.get?_put, if_pos rfl]
      have hnames : ∀ other ∈ namesOf children, other = name := by simp [hname]
      rw [write_filled hchildren hnames (by simp [hname, hput]) (hvalue children hgroup.tokenized item hitem),
        List.nil_append]
    have hsome : value.items = [] → suffix.mayBeAbsent = true := by
      intro hitems
      cases suffix with
      | plus =>
        have hgiven := hplus rfl name (hname ▸ List.mem_singleton_self name)
        rw [Route.paramValue, hget, Option.getD_some] at hgiven
        cases value with
        | list items => 
          obtain rfl : items = [] := hitems
          cases hgiven
        | null => cases hgiven
        | _ => cases hitems
      | _ => rfl
    refine ⟨filledRun children value, ?_, ?_, fun absentAllowed before rest => ?_⟩
    · refine mem_times_of_writeEach hrepeats (fun _ _ => isWritten_of_write hgroup) ?_ (writeEach_eq_ok heach)
      cases hitems : value.items with
      | nil => exact Or.inl (hsome hitems)
      | cons item items => exact Or.inr (List.cons_ne_nil _ _)
    · rw [hname, List.forall_mem_singleton]
      exact ⟨value, hget, rfl⟩
    · rw [hbinds, write_rounds hget hsome heach, filledRun]

/-- A group that the match left out is left out again, or written with what does not depend on the match. -/
theorem exists_write_of_missing {ts : List Token} (hts : GroupsAll (FaithfulGroup delimiter) ts) (hone : OneEach ts)
    (hquiet : Quiet params ts) (hleaves : ∀ b ∈ boundOf none ts, Leaves delimiter params σ b.1 b.2)
    (hmiss : ∀ name ∈ namesOf ts, mayMiss name) (before : Text) :
    ∃ x, w.write true params before ts = .ok x ∧ IsLevel params mayMiss True ts before x := by
  induction ts using tokens_induction generalizing before with
  | nil => exact ⟨before, by rw [write], Or.inl ⟨[], (List.append_nil before).symm, .nil⟩⟩
  | literal text rest ih =>
    rw [GroupsAll] at hts
    rw [OneEach] at hone
    rw [Quiet] at hquiet
    rw [boundOf] at hleaves
    obtain ⟨x, hx, hlevel⟩ := ih hts hone hquiet hleaves hmiss (before ++ text)
    exact ⟨x, by rw [write, hx], hlevel.cons id fun _ => .literal⟩
  | var name c rest ih =>
    rw [GroupsAll] at hts
    rw [OneEach] at hone
    rw [Quiet] at hquiet
    rw [boundOf, List.forall_mem_cons] at hleaves
    simp only [namesOf, Token.names, List.singleton_append, List.forall_mem_cons] at hmiss
    cases hnull : (Route.paramValue params name).isNull with
    | true => exact ⟨[], write_missing hnull true before rest, Or.inr ⟨trivial, rfl⟩⟩
    | false =>
      obtain ⟨value, hget, hvalue⟩ := hleaves.1.coded
      have hgiven : value.isNull = false := by rwa [Route.paramValue, hget] at hnull
      have hquiet' := hquiet.resolve_left (ne_true_of_eq_false hnull)
      obtain ⟨x, hx, hlevel⟩ := ih hts hone hquiet' hleaves.2 hmiss.2 (before ++ encodeValue value)
      refine ⟨x, by rw [write_variable hget hgiven (hvalue hgiven), hx], hlevel.cons id fun _ => ?_⟩
      exact .var hget hgiven (hvalue hgiven)
  | group suffix binds raw children rest ihc ih =>
    rw [GroupsAll] at hts
    rw [OneEach] at hone
    rw [Quiet] at hquiet
    rw [boundOf, List.forall_mem_append] at hleaves
    simp only [namesOf, Token.names, List.forall_mem_append] at hmiss
    cases hrepeats : suffix.repeats with
    | true =>
      rw [within, if_pos hrepeats, Option.none_or] at hleaves
      rw [if_pos hrepeats] at hone
      obtain ⟨u, hu, hgiven, hwrite⟩ :=
        @exists_write_rounds w _ _ _ _ _ _ hrepeats hts.1 hone.1 (fun b hb => (hleaves.1 b hb).coded) hquiet.1
      obtain ⟨x, hx, hlevel⟩ := ih hts.2.2 hone.2 hquiet.2.2 hleaves.2 hmiss.2 (before ++ u)
      exact ⟨x, by rw [hwrite, hx], hlevel.cons id fun _ => .rounds hrepeats hgiven hu⟩
    | false =>
      obtain rfl : suffix = .optional := by cases suffix <;> first | rfl | cases hrepeats
      obtain rfl : binds = none := hts.1.binds
      rw [if_neg (ne_true_of_eq_false hrepeats)] at hone
      obtain ⟨u, hu, hinner⟩ := ihc hts.2.1 hone.1 (hquiet.2.1 rfl) hleaves.1 hmiss.1 []
      obtain ⟨x, hx, hlevel⟩ := ih hts.2.2 hone.2 hquiet.2.2 hleaves.2 hmiss.2 (before ++ u)
      exact ⟨x, by rw [write_optional hu, hx], hlevel.cons id fun _ => hinner.optional fun _ => hmiss.1⟩

/-- So it is composed of nothing, or of what is written. -/
theorem exists_write_optional {raw : Text} {children rest : List Token}
    (hts : GroupsAll (FaithfulGroup delimiter) children) (hone : OneEach children) (hquiet : Quiet params children)
    (hleaves : ∀ b ∈ boundOf none children, Leaves delimiter params σ b.1 b.2)
    (hmiss : ∀ name ∈ namesOf children, mayMiss name) :
    ∃ u, w.write true params [] children = .ok u ∧ ∀ t, Writes params mayMiss rest t →
      Writes params mayMiss (.group .optional none raw children :: rest) (u ++ t) := by
  obtain ⟨u, hu, hlevel⟩ := @exists_write_of_missing w _ _ _ _ _ hts hone hquiet hleaves hmiss []
  exact ⟨u, hu, fun _ => hlevel.optional fun _ => hmiss⟩

/-- What a match composes its path of is written again, but for a group with a variable that took the empty text and has
no value. -/
theorem exists_write_of_composes {ts : List Token} {t : Text} (h : Composes σ ts t)
    (hts : GroupsAll (FaithfulGroup delimiter) ts) (hone : OneEach ts)
    (hgroups : OuterAll σ (IsRewritable delimiter params σ) ts) (hkept : OuterAll σ (IsKept params σ mayMiss) ts)
    (hleaves : ∀ b ∈ boundOf none ts, Leaves delimiter params σ b.1 b.2)
    (hmiss : ∀ name, σ name = none → mayMiss name) {absentAllowed : Bool}
    (hroot : LeavesOut params σ ts → absentAllowed = true) (before : Text) :
    ∃ x, w.write absentAllowed params before ts = .ok x ∧
      IsLevel params mayMiss (LeavesOut params σ ts) ts before x := by
  induction h generalizing absentAllowed before with
  | nil => exact ⟨before, by rw [write], Or.inl ⟨[], (List.append_nil before).symm, .nil⟩⟩
  | @literal text rest t _ ih =>
    rw [GroupsAll] at hts
    rw [OneEach] at hone
    rw [OuterAll] at hgroups hkept
    rw [boundOf] at hleaves
    obtain ⟨x, hx, hlevel⟩ := ih hts hone hgroups hkept hleaves (fun hleft => hroot (hleft.cons _)) (before ++ text)
    exact ⟨x, by rw [write, hx], hlevel.cons (·.cons _) fun _ => .literal⟩
  | @var name c v rest t hσ _ _ ih =>
    rw [GroupsAll] at hts
    rw [OneEach] at hone
    rw [OuterAll] at hgroups hkept
    rw [boundOf, List.forall_mem_cons] at hleaves
    cases hnull : (Route.paramValue params name).isNull with
    | true =>
      -- only the empty text leaves a variable without a value
      obtain rfl : v = [] := by
        by_contra hne
        have hgiven := hleaves.1.given rfl (by rwa [hσ])
        rw [hnull] at hgiven
        cases hgiven
      have hleft : LeavesOut params σ (.variable name c :: rest) := ⟨name, c, List.mem_cons_self, hσ, hnull⟩
      obtain rfl := hroot hleft
      exact ⟨[], write_missing hnull true before rest, Or.inr ⟨hleft, rfl⟩⟩
    | false =>
      obtain ⟨value, hget, hvalue⟩ := hleaves.1.coded
      have hgiven : value.isNull = false := by rwa [Route.paramValue, hget] at hnull
      obtain ⟨x, hx, hlevel⟩ := ih hts hone hgroups hkept hleaves.2 (fun hleft => hroot (hleft.cons _))
        (before ++ encodeValue value)
      refine ⟨x, by rw [write_variable hget hgiven (hvalue hgiven), hx], hlevel.cons (·.cons _) fun _ => ?_⟩
      exact .var hget hgiven (hvalue hgiven)
  | @rounds suffix binds raw children v rest t hrepeats hσ hv _ ih =>
    rw [GroupsAll] at hts
    rw [OneEach, if_pos hrepeats] at hone
    rw [OuterAll] at hgroups hkept
    rw [boundOf, List.forall_mem_append, within, if_pos hrepeats, Option.none_or] at hleaves
    have hplus : suffix = .plus → ∀ name ∈ namesOf children, Route.isAbsent (Route.paramValue params name) = false := by
      rintro rfl name hname
      rcases hgroups.1.given rfl name hname with hsolid | hgiven
      · obtain ⟨b, hb, rfl⟩ := exists_mem_boundOf (some raw) hname
        refine (hleaves.1 b hb).solid raw children (repeated_of_mem_boundOf hb) hts.1.tokenized hsolid ?_
        rw [hσ _ hname, Option.getD_some]
        rintro rfl
        obtain ⟨x, hx, y, -, hxy⟩ := Language.mem_mul.mp hv
        exact hsolid.nonempty ((List.append_eq_nil_iff.mp hxy).1 ▸ hx)
      · exact hgiven (by simp [hσ name hname])
    obtain ⟨u, hu, hgiven, hrounds⟩ :=
      @exists_write_rounds w _ _ _ _ _ _ hrepeats hts.1 hone.1 (fun b hb => (hleaves.1 b hb).coded) hplus
    obtain ⟨x, hx, hlevel⟩ := ih hts.2.2 hone.2 hgroups.2.2 hkept.2.2 hleaves.2 (fun hleft => hroot (hleft.cons _))
      (before ++ u)
    exact ⟨x, by rw [hrounds, hx], hlevel.cons (·.cons _) fun _ => .rounds hrepeats hgiven hu⟩
  | @absent binds raw children rest t hσ _ ih =>
    rw [GroupsAll] at hts
    rw [OneEach, if_neg (by decide)] at hone
    rw [OuterAll] at hgroups hkept
    rw [boundOf, List.forall_mem_append] at hleaves
    obtain rfl : binds = none := hts.1.binds
    obtain ⟨u, hu, hgroup⟩ := @exists_write_optional w _ _ _ _ raw _ rest hts.2.1 hone.1 (hgroups.1.quiet rfl hσ)
      hleaves.1 fun name hname => hmiss name (hσ name hname)
    obtain ⟨x, hx, hlevel⟩ := ih hts.2.2 hone.2 hgroups.2.2 hkept.2.2 hleaves.2 (fun hleft => hroot (hleft.cons _))
      (before ++ u)
    exact ⟨x, by rw [write_optional hu, hx], hlevel.cons (·.cons _) hgroup⟩
  | @present binds raw children v rest t _ _ ihinner ih =>
    rw [GroupsAll] at hts
    rw [OneEach, if_neg (by decide)] at hone
    rw [OuterAll] at hgroups hkept
    rw [boundOf, List.forall_mem_append] at hleaves
    obtain rfl : binds = none := hts.1.binds
    -- a group whose variables all miss is like one that is left out
    obtain ⟨u, hu, hgroup⟩ : ∃ u, w.write true params [] children = .ok u ∧ ∀ t, Writes params mayMiss rest t →
        Writes params mayMiss (.group .optional none raw children :: rest) (u ++ t) := by
      by_cases htaken : ∃ name ∈ namesOf children, σ name ≠ none
      · obtain ⟨u, hu, hinner⟩ := ihinner hts.2.1 hone.1 (hgroups.2.1 rfl htaken) (hkept.2.1 rfl htaken) hleaves.1
          (fun _ => rfl) []
        exact ⟨u, hu, fun _ => hinner.optional (hkept.1 rfl)⟩
      · have hσ : ∀ name ∈ namesOf children, σ name = none := by simpa using htaken
        exact exists_write_optional hts.2.1 hone.1 (hgroups.1.quiet rfl hσ) hleaves.1
          fun name hname => hmiss name (hσ name hname)
    obtain ⟨x, hx, hlevel⟩ := ih hts.2.2 hone.2 hgroups.2.2 hkept.2.2 hleaves.2 (fun hleft => hroot (hleft.cons _))
      (before ++ u)
    exact ⟨x, by rw [write_optional hu, hx], hlevel.cons (·.cons _) hgroup⟩

end PathFor

end Routing
