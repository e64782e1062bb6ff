import Mathlib.Data.List.TakeWhile
import Routing.Pattern.QuerySuffix

/-!
# Patterns with a query suffix

`Declares` is the grammar of query suffixes; `suffixNames` reads exactly what it generates (`suffixNames_iff`). A
suffix holds neither a slash nor a question mark. So what is before a slash is in no suffix (`splitSuffix_slash`), and
a suffix that is written after a path is the whole suffix (`splitSuffix_written`).
-/

namespace Routing.Pattern

/-- Whether a text can be a name. -/
def IsName (name : Text) : Prop := name ≠ [] ∧ ∀ c ∈ name, Text.isWord c = true

/-- What is after the question mark of a suffix that declares some names. -/
inductive Declares : Text → List Text → Prop
  | last {name} (h : IsName name) : Declares ('\x7b' :: name ++ ['\x7d']) [name]
  | newline {name} (h : IsName name) : Declares ('\x7b' :: name ++ ['\x7d', '\n']) [name]
  | more {name t names} (h : IsName name) (rest : Declares t names) :
    Declares ('\x7b' :: name ++ '\x7d' :: '&' :: t) (name :: names)

theorem takeWhile_name {name rest : Text} (h : IsName name) :
    (name ++ '\x7d' :: rest).takeWhile Text.isWord = name := by
  rw [List.takeWhile_append_of_pos h.2, List.takeWhile_cons_of_neg (by decide), List.append_nil]

theorem dropWhile_name {name rest : Text} (h : IsName name) :
    (name ++ '\x7d' :: rest).dropWhile Text.isWord = '\x7d' :: rest := by
  rw [List.dropWhile_append_of_pos h.2, List.dropWhile_cons_of_neg (by decide)]

theorem isName_takeWhile {t : Text} (h : (t.takeWhile Text.isWord).isEmpty ≠ true) : IsName (t.takeWhile Text.isWord) :=
  ⟨fun hnil => h (List.isEmpty_iff.mpr hnil), fun _ hc => List.mem_takeWhile_imp hc⟩

theorem declares_of_suffixNames {t : Text} {names : List Text} (h : suffixNames t = some names) : Declares t names := by
  have split : ∀ {rest tail : Text}, rest.dropWhile Text.isWord = tail → rest = rest.takeWhile Text.isWord ++ tail := by
    rintro rest tail rfl
    exact List.takeWhile_append_dropWhile.symm
  fun_induction suffixNames t generalizing names with
  | case1 => cases h
  | case2 rest name hne =>
    rename_i hdrop
    rw [← Option.some.inj h, split hdrop]
    simpa [takeWhile_name (isName_takeWhile hne)] using Declares.last (isName_takeWhile hne)
  | case3 rest name hne =>
    rename_i hdrop
    rw [← Option.some.inj h, split hdrop]
    simpa [takeWhile_name (isName_takeWhile hne)] using Declares.newline (isName_takeWhile hne)
  | case4 rest name hne more hdrop =>
    rename_i ih
    obtain ⟨others, hothers, rfl⟩ := Option.map_eq_some_iff.mp h
    rw [split hdrop]
    simpa [takeWhile_name (isName_takeWhile hne)] using Declares.more (isName_takeWhile hne) (ih hothers)
  | case5 => cases h
  | case6 => cases h

theorem suffixNames_of_declares {t : Text} {names : List Text} (h : Declares t names) : suffixNames t = some names := by
  have hempty : ∀ {name : Text}, IsName name → name.isEmpty = false := fun hname => by simp [hname.1]
  induction h with
  | last hname =>
    rw [List.cons_append, suffixNames]
    simp only [takeWhile_name hname, hempty hname, Bool.false_eq_true, if_false]
    split <;> simp_all [dropWhile_name]
  | newline hname =>
    rw [List.cons_append, suffixNames]
    simp only [takeWhile_name hname, hempty hname, Bool.false_eq_true, if_false]
    split <;> simp_all [dropWhile_name]
  | more hname rest ih =>
    rw [List.cons_append, suffixNames]
    simp only [takeWhile_name hname, hempty hname, Bool.false_eq_true, if_false]
    split <;> simp_all [dropWhile_name]

theorem suffixNames_iff {t : Text} {names : List Text} : suffixNames t = some names ↔ Declares t names :=
  ⟨declares_of_suffixNames, suffixNames_of_declares⟩

theorem Declares.isName {t : Text} {names : List Text} (h : Declares t names) : ∀ n ∈ names, IsName n := by
  induction h with
  | last hname => simpa using hname
  | newline hname => simpa using hname
  | more hname rest ih => exact List.forall_mem_cons.mpr ⟨hname, ih⟩

/-- A suffix holds the characters of names, and those that stand between them. -/
theorem Declares.not_mem {t : Text} {names : List Text} (h : Declares t names) {c : Char}
    (hword : Text.isWord c = false) (hc : c ∉ ['\x7b', '\x7d', '&', '\n']) : c ∉ t := by
  simp only [List.mem_cons, List.not_mem_nil, or_false, not_or] at hc
  have hname : ∀ {name : Text}, IsName name → c ∉ name := by
    intro name h hmem
    rw [h.2 c hmem] at hword
    cases hword
  induction h with
  | last h => simp [hname h, hc]
  | newline h => simp [hname h, hc]
  | more h rest ih => simp [hname h, hc, ih]

/-! ### Splitting -/

/-- What is before a slash is in no suffix. -/
theorem splitSuffix_slash (a b : Text) :
    splitSuffix (a ++ '/' :: b) = (a ++ '/' :: (splitSuffix b).1, (splitSuffix b).2) := by
  induction a with
  | nil => rfl
  | cons c a ih =>
    have hnone : (if c = '?' then suffixNames (a ++ '/' :: b) else none) = none := by
      split
      · rw [Option.eq_none_iff_forall_ne_some]
        intro names h
        exact (declares_of_suffixNames h).not_mem (c := '/') (by decide) (by decide) (by simp)
      · rfl
    rw [List.cons_append, splitSuffix, hnone]
    simp only [ih, List.cons_append]

theorem splitSuffix_of_nil {t : Text} (h : (splitSuffix t).2 = []) : (splitSuffix t).1 = t := by
  induction t with
  | nil => rfl
  | cons c t ih =>
    rw [splitSuffix] at h ⊢
    split at h
    · next names hnames =>
      split at hnames
      · have := declares_of_suffixNames hnames
        rw [show names = [] from h] at this
        cases this
      · cases hnames
    · exact congrArg _ (ih h)

/-- A suffix ends with a closing brace, or with a newline after it. -/
theorem Declares.getLast? {t : Text} {names : List Text} (h : Declares t names) :
    t.getLast? = some '\x7d' ∨ t.getLast? = some '\n' := by
  induction h with
  | last => exact Or.inl List.getLast?_concat
  | newline => exact Or.inr (by rw [List.getLast?_append]; rfl)
  | @more name t names _ rest ih =>
    cases t with
    | nil => cases rest
    | cons c t =>
      have hlast : ('\x7d' :: '&' :: c :: t).getLast? = (c :: t).getLast? := by simp [List.getLast?_cons_cons]
      rw [List.getLast?_append, hlast]
      rcases ih with h | h <;> rw [h]
      · exact Or.inl rfl
      · exact Or.inr rfl

/-- A pattern that ends with another character has no suffix. -/
theorem splitSuffix_of_getLast? {t : Text} {c : Char} (h : t.getLast? = some c) (hc : c ≠ '\x7d' ∧ c ≠ '\n') :
    splitSuffix t = (t, []) := by
  induction t with
  | nil => cases h
  | cons d t ih =>
    have hrest : splitSuffix t = (t, []) := by
      cases t with
      | nil => rfl
      | cons e t => exact ih (by simpa using h)
    have hnone : (if d = '?' then suffixNames t else none) = none := by
      split
      · rw [Option.eq_none_iff_forall_ne_some]
        intro names hnames
        have hdeclares := declares_of_suffixNames hnames
        cases t with
        | nil => cases hdeclares
        | cons e t =>
          have hlast : (e :: t).getLast? = some c := by simpa using h
          rcases hdeclares.getLast? with hend | hend <;> rw [hlast, Option.some.injEq] at hend
          · exact hc.1 hend
          · exact hc.2 hend
      · rfl
    rw [splitSuffix, hnone, hrest]

theorem isName_of_splitSuffix (t : Text) : ∀ n ∈ (splitSuffix t).2, IsName n := by
  induction t with
  | nil => simp [splitSuffix]
  | cons c t ih =>
    rw [splitSuffix]
    split
    · next names hnames =>
      split at hnames
      · exact (declares_of_suffixNames hnames).isName
      · cases hnames
    · exact ih

theorem declares_join {name : Text} {names : List Text} (h : ∀ n ∈ name :: names, IsName n) :
    Declares (Text.join ['&'] ((name :: names).map fun name => '\x7b' :: name ++ ['\x7d'])) (name :: names) := by
  induction names generalizing name with
  | nil => simpa [Text.join, List.intercalate] using Declares.last (h name (by simp))
  | cons second names ih =>
    have := Declares.more (h name (by simp)) (ih fun n hn => h n (List.mem_cons_of_mem _ hn))
    simpa [Text.join, List.intercalate, List.intersperse] using this

/-- The suffix that is written after a path is split off again. -/
theorem splitSuffix_written (p : Text) {names : List Text} (hne : names ≠ []) (h : ∀ n ∈ names, IsName n) :
    splitSuffix (p ++ writeSuffix names) = (p, names) := by
  obtain ⟨name, names, rfl⟩ := List.exists_cons_of_ne_nil hne
  have hread := suffixNames_of_declares (declares_join h)
  have hsuffix : writeSuffix (name :: names) =
      '?' :: Text.join ['&'] ((name :: names).map fun name => '\x7b' :: name ++ ['\x7d']) := rfl
  rw [hsuffix]
  induction p with
  | nil => rw [List.nil_append, splitSuffix, if_pos rfl, hread]
  | cons c p ih =>
    have hnone : (if c = '?' then suffixNames (p ++ '?' ::
        Text.join ['&'] ((name :: names).map fun name => '\x7b' :: name ++ ['\x7d'])) else none) = none := by
      split
      · rw [Option.eq_none_iff_forall_ne_some]
        intro found hfound
        exact (declares_of_suffixNames hfound).not_mem (c := '?') (by decide) (by decide) (by simp)
      · rfl
    rw [List.cons_append, splitSuffix, hnone]
    simp only [ih]

end Routing.Pattern
