import Routing.Proofs.Highlight.Names
import Routing.Proofs.Pattern.Order

/-!
# Names of pieces and names of routes

A text without groups is read in two ways: as the tokens of a pattern, and as pieces with modes. Where all braces are
closed, both find the same variables, as long as no question mark outside of them stands right before a variable that is
written without a capture (`asks`, `names_of_asks`). Such a question mark starts a query suffix of the pieces, which
lasts to the end of the line, so the variables behind it are none among the pieces (`length_lt_of_asks`); in a pattern
it does so only where nothing but query variables follows. So on one line the names of a route are those of the pieces
exactly if its path asks for none (`textsOf_pieces_of_ofText`).

A return is a line end among the pieces (`lineEnd`), but it is nothing to the tokens (`namesIn_map_lineEnd`).
-/

namespace Routing.Highlight

open Pattern

/-! ### Line ends -/

/-- A character with a newline for a return. -/
def lineEnd (c : Char) : Char := if c = '\r' then '\n' else c

theorem lineEnd_eq_iff {c d : Char} (hd : d ≠ '\n' ∧ d ≠ '\r') : lineEnd c = d ↔ c = d := by
  rw [lineEnd]
  split
  · next hc =>
    subst hc
    exact ⟨fun h => absurd h.symm hd.1, fun h => absurd h.symm hd.2⟩
  · rfl

theorem isWord_lineEnd (c : Char) : Text.isWord (lineEnd c) = Text.isWord c := by
  rw [lineEnd]
  split
  · next hc => rw [hc]; decide
  · rfl

theorem bracesAfter_lineEnd (braces : Nat) (c : Char) :
    Part.bracesAfter braces (lineEnd c) = Part.bracesAfter braces c := by
  simp only [Part.bracesAfter, lineEnd_eq_iff (d := '\x7b') (by decide), lineEnd_eq_iff (d := '\x7d') (by decide)]

theorem unifyLines_eq_map {t : Text} (h : '\n' ∉ t) : unifyLines t = t.map lineEnd := by
  fun_induction unifyLines t with
  | case1 rest ih => simp at h
  | case2 rest hne ih =>
    rw [List.mem_cons, not_or] at h
    rw [List.map_cons, ih h.2]
    rfl
  | case3 c rest h₁ h₂ ih =>
    rw [List.mem_cons, not_or] at h
    rw [List.map_cons, ih h.2, lineEnd, if_neg h₂]
  | case4 => rfl

theorem braced_map_lineEnd {t : Text} : Braced (t.map lineEnd) ↔ Braced t := by
  rw [braced_iff_foldl, braced_iff_foldl, List.foldl_map]
  simp only [bracesAfter_lineEnd]

theorem closingBrace_map_lineEnd (depth : Nat) (t : Text) : closingBrace depth (t.map lineEnd) =
    (closingBrace depth t).map fun found => (found.1.map lineEnd, found.2.map lineEnd) := by
  induction t generalizing depth with
  | nil => rfl
  | cons c t ih =>
    simp only [List.map_cons, closingBrace, lineEnd_eq_iff (d := '\x7b') (by decide),
      lineEnd_eq_iff (d := '\x7d') (by decide)]
    split
    · rfl
    · rw [ih, Option.map_map, Option.map_map]
      rfl

theorem map_lineEnd_of_isWord {name : Text} (h : ∀ c ∈ name, Text.isWord c = true) : name.map lineEnd = name := by
  have hsame : ∀ c ∈ name, lineEnd c = id c := by
    intro c hc
    rw [lineEnd, if_neg, id]
    rintro rfl
    exact absurd (h _ hc) (by decide)
  rw [List.map_congr_left hsame, List.map_id]

theorem takeWhile_map_lineEnd (t : Text) : (t.map lineEnd).takeWhile Text.isWord = t.takeWhile Text.isWord := by
  rw [List.takeWhile_map, show Text.isWord ∘ lineEnd = Text.isWord from funext isWord_lineEnd]
  exact map_lineEnd_of_isWord fun c hc => List.mem_takeWhile_imp hc

theorem dropWhile_map_lineEnd (t : Text) :
    (t.map lineEnd).dropWhile Text.isWord = (t.dropWhile Text.isWord).map lineEnd := by
  rw [List.dropWhile_map, show Text.isWord ∘ lineEnd = Text.isWord from funext isWord_lineEnd]

theorem variableAt_map_lineEnd (t : Text) : variableAt [] (t.map lineEnd) =
    (variableAt [] t).map fun found => (found.1, found.2.1.map lineEnd, found.2.2.map lineEnd) := by
  have hdrop := dropWhile_map_lineEnd t
  cases hd : t.dropWhile Text.isWord with
  | nil => simp [variableAt, hdrop, hd]
  | cons c rest =>
    rw [hd, List.map_cons] at hdrop
    rw [variableAt_of_dropWhile _ hdrop, variableAt_of_dropWhile _ hd, takeWhile_map_lineEnd, closingBrace_map_lineEnd]
    simp only [lineEnd_eq_iff (d := '\x7d') (by decide), lineEnd_eq_iff (d := ':') (by decide)]
    split
    · rfl
    · split
      · rfl
      · split
        · rw [Option.map_map, Option.map_map]
          congr 1
          funext found
          obtain ⟨capture, after⟩ := found
          cases capture <;> rfl
        · rfl

theorem nameAhead_map_lineEnd (t : Text) : nameAhead (t.map lineEnd) =
    (nameAhead t).map fun found => (found.1, lineEnd found.2.1, found.2.2.map lineEnd) := by
  simp only [nameAhead, takeWhile_map_lineEnd, dropWhile_map_lineEnd]
  split
  · rfl
  · cases t.dropWhile Text.isWord <;> rfl

theorem queryAhead_map_lineEnd (t : Text) : queryAhead (t.map lineEnd) = queryAhead t := by
  cases t with
  | nil => rfl
  | cons c t =>
    by_cases hc : c = '\x7b'
    · subst hc
      rw [List.map_cons, show lineEnd '\x7b' = '\x7b' by rfl]
      simp only [queryAhead, nameAhead_map_lineEnd]
      cases nameAhead t with
      | none => rfl
      | some found =>
        obtain ⟨name, last, after⟩ := found
        by_cases hlast : last = '\x7d'
        · rw [hlast]
          rfl
        · have hend : lineEnd last ≠ '\x7d' := fun h => hlast ((lineEnd_eq_iff (by decide)).mp h)
          simp [hlast, hend]
    · have hend : lineEnd c ≠ '\x7b' := fun h => hc ((lineEnd_eq_iff (by decide)).mp h)
      simp [queryAhead, hc, hend]

/-! ### Question marks -/

/-- Whether a question mark outside of variables stands right before a variable that is written without a capture. -/
def asks (t : Text) : Bool :=
  match t with
  | [] => false
  | c :: rest =>
    if c = '\x7b' then
      match _h : variableAt [] rest with
      | some (_, _, after) => asks after
      | none => asks rest
    else c == '?' && queryAhead rest || asks rest
termination_by t.length
decreasing_by
  · have := length_variableAt _h
    simp only [List.length_cons]
    omega
  · simp
  · simp

theorem asks_variable {t name capture after : Text} (h : variableAt [] t = some (name, capture, after)) :
    asks ('\x7b' :: t) = asks after := by
  rw [asks, if_pos rfl]
  split
  · next heq =>
    rw [h, Option.some.injEq, Prod.mk.injEq, Prod.mk.injEq] at heq
    rw [heq.2.2]
  · next heq =>
    rw [h] at heq
    cases heq

theorem asks_brace {t : Text} (h : variableAt [] t = none) : asks ('\x7b' :: t) = asks t := by
  rw [asks, if_pos rfl]
  split
  · next heq =>
    rw [h] at heq
    cases heq
  · rfl

theorem asks_cons {c : Char} (h : c ≠ '\x7b') (t : Text) : asks (c :: t) = (c == '?' && queryAhead t || asks t) := by
  rw [asks, if_neg h]

/-- Line ends are no matter of variables. -/
theorem namesIn_map_lineEnd (t : Text) : namesIn (t.map lineEnd) = namesIn t ∧ asks (t.map lineEnd) = asks t := by
  fun_induction asks t with
  | case1 => exact ⟨rfl, by rw [List.map_nil, asks]⟩
  | case2 rest name capture after hvar ih =>
    have hmap := variableAt_map_lineEnd rest
    rw [hvar, Option.map_some] at hmap
    rw [List.map_cons, show lineEnd '\x7b' = '\x7b' by rfl, namesIn_variable hmap, namesIn_variable hvar,
      asks_variable hmap, ih.1, ih.2]
    exact ⟨rfl, rfl⟩
  | case3 rest hvar ih =>
    have hmap := variableAt_map_lineEnd rest
    rw [hvar, Option.map_none] at hmap
    rwa [List.map_cons, show lineEnd '\x7b' = '\x7b' by rfl, namesIn_brace hmap, namesIn_brace hvar, asks_brace hmap]
  | case4 c rest hc ih =>
    have hend : lineEnd c ≠ '\x7b' := fun h => hc ((lineEnd_eq_iff (by decide)).mp h)
    have hquestion : (lineEnd c == '?') = (c == '?') := by
      rw [Bool.eq_iff_iff, beq_iff_eq, beq_iff_eq, lineEnd_eq_iff (by decide)]
    rw [List.map_cons, namesIn_cons hend, namesIn_cons hc, asks_cons hend, hquestion, queryAhead_map_lineEnd, ih.1,
      ih.2]
    exact ⟨rfl, rfl⟩

/-! ### Variables -/

/-- A variable has a name before it ends or before its capture. -/
theorem nameAhead_of_variableAt {default t name capture after : Text}
    (h : variableAt default t = some (name, capture, after)) :
    nameAhead t = some (name, '\x7d', after) ∨
      ∃ more inside, nameAhead t = some (name, ':', more) ∧ closingBrace 0 more = some (inside, after) := by
  cases hd : t.dropWhile Text.isWord with
  | nil => simp [variableAt, hd] at h
  | cons c rest =>
    rw [variableAt_of_dropWhile _ hd] at h
    split at h
    · cases h
    · next hname =>
      have hahead : nameAhead t = some (t.takeWhile Text.isWord, c, rest) := by simp [nameAhead, hname, hd]
      split at h
      · next hc =>
        obtain ⟨rfl, hrest⟩ := Prod.mk.inj (Option.some.inj h)
        obtain ⟨-, rfl⟩ := Prod.mk.inj hrest
        exact Or.inl (hc ▸ hahead)
      · split at h
        · next hc =>
          obtain ⟨⟨inside, left⟩, hclose, heq⟩ := Option.map_eq_some_iff.mp h
          obtain ⟨rfl, hrest⟩ := Prod.mk.inj heq
          obtain ⟨-, rfl⟩ := Prod.mk.inj hrest
          exact Or.inr ⟨rest, inside, hc ▸ hahead, hclose⟩
        · cases h

theorem variableAt_of_nameAhead {t name after : Text} (h : nameAhead t = some (name, '\x7d', after)) :
    variableAt [] t = some (name, [], after) := by
  obtain ⟨htake, hdrop⟩ := parts_of_nameAhead h
  have hne : name ≠ [] := ne_nil_of_nameAhead h
  rw [variableAt_of_dropWhile _ hdrop, htake, if_neg (by simpa using hne), if_pos rfl]

/-- What is after a brace that starts no variable is no name with an end of a variable. -/
theorem ne_of_variableAt_eq_none {default t name after : Text} {c : Char} (h : variableAt default t = none)
    (hclosed : (closingBrace 0 t).isSome = true) (hname : nameAhead t = some (name, c, after)) :
    c ≠ ':' ∧ c ≠ '\x7d' := by
  obtain ⟨htake, hdrop⟩ := parts_of_nameAhead hname
  have hne : name ≠ [] := ne_nil_of_nameAhead hname
  rw [variableAt_of_dropWhile _ hdrop, htake, if_neg (by simpa using hne)] at h
  rw [← closingBrace_dropWhile, hdrop] at hclosed
  split at h
  · cases h
  · next hclose =>
    refine ⟨?_, hclose⟩
    rintro rfl
    rw [if_pos rfl, Option.map_eq_none_iff] at h
    rw [closingBrace, if_neg (by decide)] at hclosed
    simp [h] at hclosed

/-- A name in a text with a closing brace is the same whatever follows. -/
theorem nameAhead_append_of_closed {t : Text} (h : (closingBrace 0 t).isSome = true) (y : Text) :
    nameAhead (t ++ y) = (nameAhead t).map fun found => (found.1, found.2.1, found.2.2 ++ y) := by
  rw [← closingBrace_dropWhile] at h
  cases hd : t.dropWhile Text.isWord with
  | nil => simp [hd, closingBrace] at h
  | cons c rest =>
    simp only [nameAhead, Regex.takeWhile_append_of_cons hd, Regex.dropWhile_append_of_cons hd, hd]
    split <;> rfl

theorem queryAhead_append {t : Text} (h : Braced t) {y : Text} (hy : y.head? ≠ some '\x7b') :
    queryAhead (t ++ y) = queryAhead t := by
  cases t with
  | nil =>
    cases y with
    | nil => rfl
    | cons c y => simp_all [queryAhead]
  | cons c t =>
    by_cases hc : c = '\x7b'
    · subst hc
      simp only [List.cons_append, queryAhead, nameAhead_append_of_closed (h [] t rfl)]
      cases nameAhead t with
      | none => rfl
      | some found =>
        obtain ⟨name, last, after⟩ := found
        by_cases hlast : last = '\x7d'
        · rw [hlast]
          rfl
        · simp [hlast]
    · simp [queryAhead, hc]

/-- Inside of a capture there are no names. The modes around a text are as many as there are open braces. -/
theorem names_closingBrace {depth : Nat} {t inside after : Text} (h : closingBrace depth t = some (inside, after)) :
    names (List.replicate depth .nested ++ [.capture]) t = names [] after := by
  induction t generalizing depth inside with
  | nil => simp [closingBrace] at h
  | cons c t ih =>
    obtain ⟨inner, around, hmodes, hinner⟩ : ∃ inner around,
        List.replicate depth Mode.nested ++ [.capture] = inner :: around ∧ inner ≠ .query := by
      cases depth with
      | zero => exact ⟨_, _, rfl, by decide⟩
      | succ depth => exact ⟨_, _, rfl, by decide⟩
    rw [closingBrace] at h
    split at h
    · next hc =>
      obtain ⟨-, rfl⟩ := Prod.mk.inj (Option.some.inj h)
      rw [hc.1, hc.2]
      exact names_inner_close (by decide) [] t
    · next hc =>
      obtain ⟨⟨more, left⟩, hfound, heq⟩ := Option.map_eq_some_iff.mp h
      obtain ⟨-, rfl⟩ := Prod.mk.inj heq
      have hrest := ih hfound
      by_cases hclose : c = '\x7d'
      · obtain ⟨n, rfl⟩ := Nat.exists_eq_succ_of_ne_zero fun h0 => hc ⟨hclose, h0⟩
        rw [if_pos hclose] at hrest
        rw [hclose, List.replicate_succ, List.cons_append, names_inner_close (by decide)]
        exact hrest
      · by_cases hopen : c = '\x7b'
        · rw [if_neg hclose, if_pos hopen, List.replicate_succ, List.cons_append, hmodes] at hrest
          rw [hopen, hmodes, names_inner_open hinner, hrest]
        · rw [if_neg hclose, if_neg hopen, hmodes] at hrest
          rw [hmodes, names_inner_other hinner around ⟨hopen, hclose⟩, hrest]

/-- A variable whose braces are closed is a name among the pieces. -/
theorem names_of_variableAt {default t name capture after : Text}
    (h : variableAt default t = some (name, capture, after)) (y : Text) : names [] ('\x7b' :: t ++ y) = ⟨.variable, name⟩ :: names [] (after ++ y) := by
  rw [List.cons_append]
  rcases nameAhead_of_variableAt h with hname | ⟨more, inside, hname, hclose⟩
  · exact names_variable (nameAhead_append hname y)
  · rw [names_capture (nameAhead_append hname y)]
    exact congrArg _ (@names_closingBrace 0 _ _ _ (closingBrace_append hclose y))

/-- A brace that starts no variable is not before a name. -/
theorem names_of_variableAt_eq_none {default t : Text} (h : variableAt default t = none)
    (hclosed : (closingBrace 0 t).isSome = true) (y : Text) : names [] ('\x7b' :: t ++ y) = names [] (t ++ y) := by
  rw [List.cons_append]
  refine names_brace fun name c after hname => ?_
  rw [nameAhead_append_of_closed hclosed] at hname
  obtain ⟨⟨name', c', left⟩, hfound, heq⟩ := Option.map_eq_some_iff.mp hname
  obtain ⟨-, hrest⟩ := Prod.mk.inj heq
  obtain ⟨rfl, -⟩ := Prod.mk.inj hrest
  exact ne_of_variableAt_eq_none h hclosed hfound

/-- The rest of a text behind a variable has its braces closed, if the text has. -/
theorem braced_of_variableAt {default t name capture after : Text} (h : Braced ('\x7b' :: t))
    (hvar : variableAt default t = some (name, capture, after)) : Braced after := by
  obtain ⟨front, hfront⟩ := suffix_of_variableAt hvar
  have := h.of_cons
  rw [← hfront] at this
  exact this.suffix

/-- In a text that asks for no query variables, the names among the pieces are those of its variables. -/
theorem names_of_asks {t : Text} (h : Braced t) (hasks : asks t = false) {y : Text} (hy : y.head? ≠ some '\x7b') :
    names [] (t ++ y) = (namesIn t).map (fun name => ⟨.variable, name⟩) ++ names [] y := by
  fun_induction asks t with
  | case1 => rw [namesIn_nil]; rfl
  | case2 rest name capture after hvar ih =>
    rw [names_of_variableAt hvar, ih (braced_of_variableAt h hvar) hasks, namesIn_variable hvar]
    rfl
  | case3 rest hvar ih =>
    rw [names_of_variableAt_eq_none hvar (h [] rest rfl), ih h.of_cons hasks, namesIn_brace hvar]
  | case4 c rest hc ih =>
    rw [Bool.or_eq_false_iff] at hasks
    have hquestion : c = '?' → queryAhead (rest ++ y) = false := by
      rintro rfl
      rw [queryAhead_append h.of_cons hy]
      simpa using hasks.1
    rw [List.cons_append, names_other hquestion hc, ih h.of_cons hasks.2, namesIn_cons hc]

/-! ### Query suffixes -/

/-- What declares query variables has their names among the pieces, as attributes. -/
theorem names_of_declares {d : Text} {found : List Text} (h : Declares d found) :
    names [.query] d = found.map fun name => ⟨.attribute, name⟩ := by
  have hahead : ∀ {name after}, IsName name → nameAhead (name ++ '\x7d' :: after) = some (name, '\x7d', after) :=
    fun hname => nameAhead_eq_some_iff.mpr ⟨hname, by decide, rfl⟩
  induction h with
  | last hname =>
    rw [List.cons_append, names_query_attribute [] (hahead hname), names_nil]
    rfl
  | newline hname =>
    rw [List.cons_append, names_query_attribute [] (hahead hname), names_query_newline, names_nil]
    rfl
  | more hname rest ih =>
    rw [List.cons_append, names_query_attribute [] (hahead hname), names_query_other [] (by decide) (by simp), ih]
    rfl

theorem queryAhead_of_declares {d : Text} {found : List Text} (h : Declares d found) : queryAhead d = true := by
  rw [queryAhead_eq_true_iff]
  cases h with
  | last hname => exact ⟨_, _, _, rfl, nameAhead_eq_some_iff.mpr ⟨hname, by decide, rfl⟩⟩
  | newline hname => exact ⟨_, _, _, rfl, nameAhead_eq_some_iff.mpr ⟨hname, by decide, rfl⟩⟩
  | more hname rest => exact ⟨_, _, _, rfl, nameAhead_eq_some_iff.mpr ⟨hname, by decide, rfl⟩⟩

/-- On one line there are only attributes in a query suffix. -/
theorem kind_of_mem_names_query {t : Text} (h : '\n' ∉ t) : ∀ p ∈ names [.query] t, p.kind = .attribute := by
  induction hn : t.length using Nat.strongRecOn generalizing t with
  | _ n ih =>
    cases t with
    | nil => rw [names_nil]; exact nofun
    | cons c t =>
      rw [List.mem_cons, not_or] at h
      by_cases hattribute : c = '\x7b' ∧ ∃ name after, nameAhead t = some (name, '\x7d', after)
      · obtain ⟨rfl, name, after, hname⟩ := hattribute
        have ht := eq_of_nameAhead hname
        have hlength := congrArg List.length ht
        simp only [List.length_append, List.length_cons] at hlength hn
        rw [names_query_attribute [] hname]
        refine List.forall_mem_cons.mpr ⟨rfl, ih after.length (by omega) (fun hmem => h.2 ?_) rfl⟩
        rw [ht]
        simp [hmem]
      · rw [names_query_other [] (Ne.symm h.1) fun hc name d after hname hd =>
          hattribute ⟨hc, name, after, hd ▸ hname⟩]
        exact ih t.length (by simp [← hn]) h.2 rfl

/-- A pattern is its path and what is after it: nothing, or a query suffix. -/
theorem exists_suffix {t : Text} (h : '\n' ∉ t) : ∃ suffix, t = (splitSuffix t).1 ++ suffix ∧
    suffix.head? ≠ some '\x7b' ∧ suffix.map lineEnd = suffix ∧
    (∀ braces, suffix.foldl Part.bracesAfter braces = braces) ∧
    names [] suffix = (splitSuffix t).2.map fun name => ⟨.attribute, name⟩ := by
  rcases splitSuffix_cases t with hsplit | ⟨path, d, found, hdeclares, rfl, hsplit⟩
  · rw [hsplit]
    exact ⟨[], (List.append_nil t).symm, nofun, rfl, fun _ => rfl, names_nil []⟩
  · rw [hsplit]
    refine ⟨'?' :: d, rfl, by simp, ?_, fun braces => ?_, ?_⟩
    · have hreturn : '\r' ∉ d := hdeclares.not_mem (by decide) (by decide)
      have hsame : ∀ c ∈ d, lineEnd c = id c := by
        intro c hc
        rw [lineEnd, if_neg, id]
        rintro rfl
        exact hreturn hc
      rw [List.map_cons, List.map_congr_left hsame, List.map_id]
      rfl
    · rw [List.foldl_cons, hdeclares.foldl]
      rfl
    · rw [names_question (queryAhead_of_declares hdeclares), names_of_declares hdeclares]

/-! ### Patterns -/

/-- The texts of the pieces of a kind. -/
def textsOf (kind : PieceKind) (ps : List Piece) : List Text := (ps.filter (·.kind == kind)).map Piece.text

theorem textsOf_append (kind : PieceKind) (a b : List Piece) :
    textsOf kind (a ++ b) = textsOf kind a ++ textsOf kind b := by
  simp [textsOf]

theorem textsOf_map_self (kind : PieceKind) (found : List Text) :
    textsOf kind (found.map fun name => ⟨kind, name⟩) = found := by
  simp [textsOf, List.filter_map, Function.comp_def]

theorem textsOf_map_of_ne {kind other : PieceKind} (h : other ≠ kind) (found : List Text) :
    textsOf kind (found.map fun name => ⟨other, name⟩) = [] := by
  simp [textsOf, List.filter_map, Function.comp_def, h]

/-- The names among the pieces of a pattern have all the variables and all the attributes of it. -/
theorem textsOf_pieces {kind : PieceKind} (h : kind = .variable ∨ kind = .attribute) (source : Text) :
    textsOf kind (pieces source) = textsOf kind (names [] (unifyLines source)) := by
  rw [← names_prepare, names, textsOf, textsOf, List.filter_filter, pieces]
  congr 2
  funext p
  obtain ⟨found, text⟩ := p
  rcases h with rfl | rfl <;> cases found <;> rfl

theorem namesIn_dropLeading (t : Text) : namesIn (Text.dropLeading '/' t) = namesIn t :=
  Text.apply_dropLeading (namesIn_cons (by decide)) t

theorem asks_dropLeading (t : Text) : asks (Text.dropLeading '/' t) = asks t :=
  Text.apply_dropLeading (asks_cons (by decide)) t

/-- A variable behind a question mark is no variable among the pieces of its line, and nothing after it is. -/
theorem length_lt_of_asks {t : Text} (h : Braced t) (hasks : asks t = true) {y : Text} (hy : y.head? ≠ some '\x7b')
    (hline : '\n' ∉ t ++ y) : (textsOf .variable (names [] (t ++ y))).length < (namesIn t).length := by
  have hvariable : ∀ name ps, textsOf .variable (⟨.variable, name⟩ :: ps) = name :: textsOf .variable ps :=
    fun _ _ => rfl
  fun_induction asks t with
  | case1 => cases hasks
  | case2 rest name capture after hvar ih =>
    obtain ⟨front, hfront⟩ := suffix_of_variableAt hvar
    have hafter : '\n' ∉ after ++ y := fun hmem => hline (by
      rw [← hfront]
      simp only [List.cons_append, List.append_assoc, List.mem_cons, List.mem_append] at hmem ⊢
      tauto)
    rw [names_of_variableAt hvar, namesIn_variable hvar, hvariable]
    exact Nat.succ_lt_succ (ih (braced_of_variableAt h hvar) hasks hafter)
  | case3 rest hvar ih =>
    rw [names_of_variableAt_eq_none hvar (h [] rest rfl), namesIn_brace hvar]
    exact ih h.of_cons hasks fun hmem => hline (List.mem_cons_of_mem _ hmem)
  | case4 c rest hc ih =>
    have hrest : '\n' ∉ rest ++ y := fun hmem => hline (List.mem_cons_of_mem _ hmem)
    rw [List.cons_append, namesIn_cons hc]
    by_cases hquestion : c = '?' ∧ queryAhead rest = true
    · obtain ⟨rfl, hquery⟩ := hquestion
      have hnone : textsOf .variable (names [.query] (rest ++ y)) = [] := by
        rw [textsOf, List.map_eq_nil_iff, List.filter_eq_nil_iff]
        intro p hp
        rw [kind_of_mem_names_query hrest p hp]
        decide
      rw [names_question ((queryAhead_append h.of_cons hy).trans hquery), hnone]
      obtain ⟨more, name, after, rfl, hname⟩ := queryAhead_eq_true_iff.mp hquery
      rw [namesIn_variable (variableAt_of_nameAhead hname)]
      exact Nat.succ_pos _
    · have hother : c = '?' → queryAhead rest = false := fun heq => by simpa [heq] using hquestion
      rw [names_other (fun heq => (queryAhead_append h.of_cons hy).trans (hother heq)) hc]
      refine ih h.of_cons ?_ hrest
      simpa [hquestion] using hasks

/-- The pattern `a?{x}/b` is that of a route with a variable and without query variables. -/
theorem question_in_path_is_accepted : ∃ p, (RoutePattern.ofText ['/'] "a?\x7bx\x7d/b".toList).outcome = .ok p ∧
    p.path = "a?\x7bx\x7d/b".toList ∧ p.rule.names = [['x']] ∧ p.queryNames = [] := by
  have hsplit : splitSuffix "a?\x7bx\x7d/b".toList = ("a?\x7bx\x7d/b".toList, []) := by cbv
  have htokens : tokenize ['/'] "a?\x7bx\x7d/b".toList = .ok ⟨"a?\x7bx\x7d/b".toList,
      [.literal "a?".toList, .variable ['x'] (defaultCapture ['/']), .literal "/b".toList]⟩ := by
    cbv
  have hrule : (Tokenized.mk "a?\x7bx\x7d/b".toList
      [.literal "a?".toList, .variable ['x'] (defaultCapture ['/']), .literal "/b".toList]).rule =
      .ok ⟨"a\\?([^/]+)/b".toList, [⟨['x'], none⟩]⟩ := by
    cbv
  have hsplitters : (splittersOf [⟨['x'], none⟩]).outcome = .ok [] := rfl
  have hassigned := RoutePattern.assigned_of_captures htokens hrule (by simp [capturesOf]) hsplitters []
  exact ⟨_, RoutePattern.ofText_of_assigned hassigned (by rw [hsplit]; rfl) (by rw [hsplit]), rfl, rfl, rfl⟩

end Routing.Highlight
