import Mathlib
import Routing.Proofs.Pattern.Rule
import Routing.Proofs.Query
import Routing.Query.Arguments

/-!
# Arguments and queries

The parameters that arguments give are those of the query of the same pairs, as long as no key is written with
brackets (`ofArguments_agrees`): a key takes one more text in the same way in both (`map_ofTexts_put`). Arguments are
refused if one of them has no equals sign or nothing before it, and the first one of that kind is the one that is named.
-/

namespace Routing.Query

/-! ### Single arguments -/

/-- The argument that gives a key and a value. -/
def argumentOf (pair : Text × Text) : Text := pair.1 ++ '=' :: pair.2

/-- Whether a text has an equals sign, with something before it. -/
def IsArgument (argument : Text) : Prop := '=' ∈ argument ∧ argument.head? ≠ some '='

instance : DecidablePred IsArgument := fun _ => inferInstanceAs (Decidable (_ ∧ _))

theorem not_isArgument_iff {argument : Text} : ¬ IsArgument argument ↔ '=' ∉ argument ∨ argument.head? = some '=' := by
  rw [IsArgument, not_and_or, not_not]

theorem readArgument_argumentOf {pair : Text × Text} (hne : pair.1 ≠ []) (hequals : '=' ∉ pair.1) :
    readArgument (argumentOf pair) = .ok pair := by
  obtain ⟨key, value⟩ := pair
  obtain ⟨c, rest, rfl⟩ := List.exists_cons_of_ne_nil hne
  rw [readArgument, argumentOf, Text.cut_append hequals]

theorem exists_argumentOf {argument : Text} (h : IsArgument argument) :
    ∃ pair : Text × Text, pair.1 ≠ [] ∧ '=' ∉ pair.1 ∧ argument = argumentOf pair := by
  obtain ⟨key, value, rfl, hequals⟩ := List.eq_append_cons_of_mem h.1
  refine ⟨(key, value), ?_, hequals, rfl⟩
  rintro rfl
  exact h.2 rfl

/-- Any other text is refused, and named. -/
theorem readArgument_of_not {argument : Text} (h : ¬ IsArgument argument) :
    readArgument argument = .error (.badPair argument) := by
  have hcut : ∀ c rest value, Text.cut '=' argument ≠ (c :: rest, some value) := by
    intro c rest value heq
    apply h
    by_cases hequals : '=' ∈ argument
    · refine ⟨hequals, fun hhead => ?_⟩
      obtain ⟨more, rfl⟩ := List.head?_eq_some_iff.mp hhead
      cases heq
    · rw [Text.cut_of_not_mem hequals] at heq
      cases heq
  rw [readArgument]
  split
  · next heq => exact absurd heq (hcut _ _ _)
  · rfl

/-! ### All arguments -/

theorem readArguments_cons (argument : Text) (rest : List Text) :
    readArguments (argument :: rest) = do return (← readArgument argument) :: (← readArguments rest) :=
  List.mapM_cons

theorem readArguments_map {pairs : List (Text × Text)} (h : ∀ pair ∈ pairs, pair.1 ≠ [] ∧ '=' ∉ pair.1) :
    readArguments (pairs.map argumentOf) = .ok pairs := by
  induction pairs with
  | nil => rfl
  | cons pair rest ih =>
    rw [List.forall_mem_cons] at h
    rw [List.map_cons, readArguments_cons, readArgument_argumentOf h.1.1 h.1.2, ih h.2]
    rfl

/-- Arguments are read one after the other, up to the first one that is refused. -/
theorem readArguments_eq_error_iff {arguments : List Text} {e : RouteError} :
    readArguments arguments = .error e ↔ ∃ before bad after, arguments = before ++ bad :: after ∧
      (∀ argument ∈ before, IsArgument argument) ∧ ¬ IsArgument bad ∧ e = .badPair bad := by
  induction arguments with
  | nil =>
    refine iff_of_false nofun ?_
    rintro ⟨before, bad, after, hsplit, -⟩
    cases before <;> cases hsplit
  | cons first rest ih =>
    by_cases hfirst : IsArgument first
    · obtain ⟨pair, hne, hequals, rfl⟩ := exists_argumentOf hfirst
      have hrest : readArguments (argumentOf pair :: rest) = .error e ↔ readArguments rest = .error e := by
        rw [readArguments_cons, readArgument_argumentOf hne hequals]
        cases readArguments rest <;> simp [bind, Except.bind, pure, Except.pure]
      rw [hrest, ih]
      constructor
      · rintro ⟨before, bad, after, rfl, hbefore, hbad⟩
        exact ⟨argumentOf pair :: before, bad, after, rfl, List.forall_mem_cons.mpr ⟨hfirst, hbefore⟩, hbad⟩
      · rintro ⟨before, bad, after, hsplit, hbefore, hbad, he⟩
        cases before with
        | nil => exact absurd ((List.cons.inj hsplit).1 ▸ hfirst) hbad
        | cons _ before =>
          exact ⟨before, bad, after, (List.cons.inj hsplit).2, (List.forall_mem_cons.mp hbefore).2, hbad, he⟩
    · rw [readArguments_cons, readArgument_of_not hfirst]
      constructor
      · intro h
        exact ⟨[], first, rest, rfl, nofun, hfirst, (Except.error.inj h).symm⟩
      · rintro ⟨before, bad, after, hsplit, hbefore, -, rfl⟩
        cases before with
        | nil => rw [(List.cons.inj hsplit).1]; rfl
        | cons _ before =>
          exact absurd ((List.cons.inj hsplit).1 ▸ (List.forall_mem_cons.mp hbefore).1) hfirst

theorem ofArguments_eq_error_iff {arguments : List Text} {e : RouteError} :
    ofArguments arguments = .error e ↔ ∃ before bad after, arguments = before ++ bad :: after ∧
      (∀ argument ∈ before, IsArgument argument) ∧ ¬ IsArgument bad ∧ e = .badPair bad := by
  rw [← readArguments_eq_error_iff, ofArguments]
  cases readArguments arguments <;> simp [Except.map]

/-- Of texts that are not all arguments there is a first one that is none. -/
theorem exists_first_bad {arguments : List Text} (h : ∃ argument ∈ arguments, ¬ IsArgument argument) :
    ∃ before bad after, arguments = before ++ bad :: after ∧ (∀ argument ∈ before, IsArgument argument) ∧
      ¬ IsArgument bad := by
  have hsome : (arguments.find? fun argument => ¬ IsArgument argument).isSome = true := by
    simpa [List.find?_isSome] using h
  obtain ⟨bad, hfind⟩ := Option.isSome_iff_exists.mp hsome
  obtain ⟨hbad, before, after, hsplit, hbefore⟩ := List.find?_eq_some_iff_append.mp hfind
  exact ⟨before, bad, after, hsplit, by simpa using hbefore, by simpa using hbad⟩

/-! ### Collecting the values -/

/-- A key takes one more text as a name of a query does that is written without brackets. -/
theorem map_ofTexts_put {m : Mapping (List Text)} {key : Text} (h : m.get? key ≠ some []) (value : Text) :
    (m.put key ((m.get? key).getD [] ++ [value])).map ofTexts = add (m.map ofTexts) key false value := by
  rw [Mapping.map_put, add, Mapping.get?_map_value]
  rcases hget : m.get? key with _ | _ | ⟨first, _ | ⟨second, rest⟩⟩
  · rfl
  · exact absurd hget h
  · rfl
  · simp [ofTexts]

theorem collect_concat (pairs : List (Text × Text)) (pair : Text × Text) :
    collect (pairs ++ [pair]) =
      (collect pairs).put pair.1 (((collect pairs).get? pair.1).getD [] ++ [pair.2]) := by
  rw [collect, List.foldl_append]
  rfl

theorem get?_collect_ne (pairs : List (Text × Text)) (key : Text) : (collect pairs).get? key ≠ some [] := by
  induction pairs using List.reverseRecOn with
  | nil => nofun
  | append_singleton pairs pair ih =>
    rw [collect_concat, Mapping.get?_put]
    split
    · simp
    · exact ih

/-- The values of all keys are collected as those of a query without brackets. -/
theorem map_collect (pairs : List (Text × Text)) :
    (collect pairs).map ofTexts = pairs.foldl (fun m pair => add m pair.1 false pair.2) .empty := by
  induction pairs using List.reverseRecOn with
  | nil => rfl
  | append_singleton pairs pair ih =>
    rw [collect_concat, map_ofTexts_put (get?_collect_ne pairs pair.1), ih, List.foldl_append]
    rfl

theorem foldl_addPair_of_plain {pairs : List (Text × Text)} (h : ∀ pair ∈ pairs, ∀ name, ¬ Brackets name pair.1)
    (m : Mapping Value) : pairs.foldl addPair m = pairs.foldl (fun m pair => add m pair.1 false pair.2) m := by
  apply List.foldl_ext
  intro m pair hpair
  rw [addPair, bracketBase_eq_none.mpr (h pair hpair)]

/-- Arguments whose keys are not written with brackets give the values of the query with the same pairs, in the same
order. Arguments are refused if one of them has no equals sign or starts with one, and then the first one of that kind
is named. -/
theorem ofArguments_agrees :
    (∀ pairs : List (Text × Text),
      (∀ pair ∈ pairs, pair.1 ≠ [] ∧ '=' ∉ pair.1 ∧ ∀ name, ¬ Brackets name pair.1) →
        ofArguments (pairs.map argumentOf) = .ok (parse (Text.join ['&'] (pairs.map writePair)))) ∧
      ∀ arguments, ((∃ e, ofArguments arguments = .error e) ↔
          ∃ argument ∈ arguments, '=' ∉ argument ∨ argument.head? = some '=') ∧
        ∀ e, ofArguments arguments = .error e → ∃ before bad after, arguments = before ++ bad :: after ∧
          (∀ argument ∈ before, IsArgument argument) ∧ ¬ IsArgument bad ∧ e = .badPair bad := by
  refine ⟨fun pairs h => ?_, fun arguments => ⟨?_, fun e => ofArguments_eq_error_iff.mp⟩⟩
  · have hread := readArguments_map fun pair hpair => ⟨(h pair hpair).1, (h pair hpair).2.1⟩
    rw [ofArguments, hread, parse, pairs_join, foldl_addPair_of_plain fun pair hpair => (h pair hpair).2.2,
      ← map_collect]
    rfl
  · simp only [← not_isArgument_iff]
    constructor
    · rintro ⟨e, he⟩
      obtain ⟨before, bad, after, rfl, -, hbad, -⟩ := ofArguments_eq_error_iff.mp he
      exact ⟨bad, List.mem_append_right _ List.mem_cons_self, hbad⟩
    · intro h
      obtain ⟨before, bad, after, hsplit, hbefore, hbad⟩ := exists_first_bad h
      exact ⟨.badPair bad, ofArguments_eq_error_iff.mpr ⟨before, bad, after, hsplit, hbefore, hbad, rfl⟩⟩

/-- A key with an empty text before another one, and a key with marks of queries and an open bracket. -/
theorem repeated_keys_agree :
    ∃ pairs : List (Text × Text), pairs.map argumentOf = [['k', '='], "a&b[0=x=y".toList, "k=+".toList] ∧
      Text.join ['&'] (pairs.map writePair) = "k=&a%26b%5B0=x%3Dy&k=%2B".toList ∧
      ofArguments (pairs.map argumentOf) = .ok (parse (Text.join ['&'] (pairs.map writePair))) ∧
      ofArguments (pairs.map argumentOf) =
        .ok ⟨[(['k'], .list [.str [], .str ['+']]), ("a&b[0".toList, .str "x=y".toList)]⟩ := by
  refine ⟨[(['k'], []), ("a&b[0".toList, "x=y".toList), (['k'], ['+'])], by decide, by cbv,
    ofArguments_agrees.1 _ ?_, by cbv⟩
  have hk : ∀ name, ¬ Brackets name ['k'] := bracketBase_eq_none.mp (by cbv)
  simp only [List.forall_mem_cons]
  exact ⟨⟨by decide, by decide, hk⟩, ⟨by decide, by decide, bracketBase_eq_none.mp (by cbv)⟩,
    ⟨by decide, by decide, hk⟩, List.forall_mem_nil _⟩

end Routing.Query
