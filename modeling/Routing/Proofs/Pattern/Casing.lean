import Routing.Proofs.Pattern.Acceptance
import Routing.Proofs.Pattern.Composing
import Routing.Proofs.Pattern.Printing

/-!
# Runs between texts

A run may have text before and after it, and so may the item in each of its rounds (`Casing`). Its text is cut into the
items again where the expression of a round takes each round as a whole at first (`Cuts.search`), and it does if the
capture takes the item as a whole before a slash and slashes stand between items (`Casing.cuts_run`).
-/

namespace Routing.Pattern

open Regex
open scoped Computability

/-! ### Tokens of a text -/

/-- The tokens of a text without brackets and braces. -/
def literals : Text → List Token
  | [] => []
  | c :: t => [.literal (c :: t)]

section Literals

variable (t : Text) (ts : List Token)

@[simp] theorem namesOf_literals : namesOf (literals t) = [] := by
  cases t <;> simp [literals, namesOf, Token.names]

@[simp] theorem capturesOf_literals_append : capturesOf (literals t ++ ts) = capturesOf ts := by
  cases t <;> simp [literals, capturesOf]

@[simp] theorem boundOf_literals (inside : Option Text) : boundOf inside (literals t) = [] := by
  cases t <;> simp [literals, boundOf]

@[simp] theorem regexOf_literals (inside : Bool) : regexOf inside (literals t) = escape t := by
  cases t <;> simp [literals, regexOf, escape]

@[simp] theorem written_literals : written (literals t) = t := by
  cases t <;> simp [literals, written]

@[simp] theorem spliceable_literals (inside : Bool) : Spliceable inside (literals t ++ ts) ↔ Spliceable inside ts := by
  cases t <;> simp [literals, Spliceable]

theorem wordsBy_literals (values : Text → Language Char) :
    wordsBy values (literals t ++ ts) = {t} * wordsBy values ts := by
  cases t with
  | nil => exact (one_mul _).symm
  | cons c t => rw [literals, List.singleton_append, wordsBy]

theorem composes_literals {σ : Text → Option Text} {u : Text} :
    Composes σ (literals t ++ ts) u ↔ ∃ v, u = t ++ v ∧ Composes σ ts v := by
  cases t with
  | nil => simp [literals]
  | cons c t => exact composes_literal

theorem isPrintable_literals {t : Text} (h : ∀ c ∈ t, c ≠ '[' ∧ c ≠ ']' ∧ c ≠ '\x7b') {ts : List Token}
    (hts : IsPrintable ts) (hhead : ∀ token ∈ ts.head?, token.isLiteral = false) : IsPrintable (literals t ++ ts) := by
  cases t with
  | nil => exact hts
  | cons c t =>
    rw [literals, List.singleton_append, IsPrintable]
    exact ⟨⟨List.cons_ne_nil c t, h⟩, hhead, hts⟩

theorem isPrintable_literals_nil {t : Text} (h : ∀ c ∈ t, c ≠ '[' ∧ c ≠ ']' ∧ c ≠ '\x7b') :
    IsPrintable (literals t) := by
  have hnil := @isPrintable_literals t h [] (by simp [IsPrintable]) (by simp)
  rwa [List.append_nil] at hnil

end Literals

theorem isName_singleton {c : Char} (h : Text.isWord c = true) : IsName [c] :=
  ⟨List.cons_ne_nil c [], List.forall_mem_singleton.mpr h⟩

/-- No brackets and braces are in a name. -/
theorem plain_of_isName {name : Text} (h : IsName name) : ∀ c ∈ name, c ≠ '[' ∧ c ≠ ']' ∧ c ≠ '\x7b' := by
  intro c hc
  have hmem := h.2 c hc
  refine ⟨?_, ?_, ?_⟩ <;>
  · rintro rfl
    exact absurd hmem (by decide)

/-! ### Casings -/

/-- The texts around a run, and around the item in each of its rounds. -/
structure Casing where
  before : Text := []
  opening : Text := []
  closing : Text := []
  after : Text := []

namespace Casing

variable (k : Casing) (name capture raw : Text)

/-- The tokens of one round. -/
def round : List Token := literals k.opening ++ .variable name capture :: literals k.closing

/-- The tokens of the run, where the pattern of a round is `raw`, and of the texts around it. -/
def tokens : List Token :=
  literals k.before ++ .group .star (some name) raw (k.round name capture) :: literals k.after

/-- The pattern `opening{name:capture}closing`. -/
def roundPattern : Text := k.opening ++ '\x7b' :: name ++ ':' :: capture ++ '\x7d' :: k.closing

/-- The pattern `before[opening{name:capture}closing]*after`. -/
def pattern : Text := k.before ++ '[' :: k.roundPattern name capture ++ ']' :: '*' :: k.after

/-- The text of a round. -/
def item (x : Text) : Text := k.opening ++ x ++ k.closing

theorem item_ne_nil {x : Text} (h : x ≠ []) : k.item x ≠ [] :=
  List.append_ne_nil_of_left_ne_nil (List.append_ne_nil_of_right_ne_nil k.opening h) k.closing

/-- The text of a run. -/
def run (xs : List Text) : Text := xs.flatMap k.item

/-- The text of a run and of what is around it. -/
def text (xs : List Text) : Text := k.before ++ k.run xs ++ k.after

/-- The expression of a round. -/
def splitter (e : Regex) : Regex :=
  seqAll (k.opening.map (fun c => .oneOf (.single c false)) ++
    .capture 1 e :: k.closing.map fun c => .oneOf (.single c false))

theorem namesOf_round : namesOf (k.round name capture) = [name] := by
  simp [round, namesOf_append, namesOf, Token.names]

theorem namesOf_tokens : namesOf (k.tokens name capture raw) = [name] := by
  simp [tokens, namesOf_append, namesOf, Token.names, namesOf_round]

theorem boundOf_tokens :
    boundOf none (k.tokens name capture raw) = [(⟨name, some raw⟩, capture)] := by
  simp [tokens, round, boundOf_append, boundOf, within, Suffix.repeats]

theorem capturesOf_tokens : capturesOf (k.tokens name capture raw) = [capture] :=
  capturesOf_of_boundOf (k.boundOf_tokens name capture raw)

theorem oneEach_tokens : OneEach (k.tokens name capture raw) :=
  oneEach_of_length (by rw [namesOf_tokens]; exact Nat.le_refl 1)

theorem rule_tokens (source : Text) : Tokenized.rule ⟨source, k.tokens name capture raw⟩ =
    .ok ⟨regexOf false (k.tokens name capture raw), [⟨name, some raw⟩]⟩ := by
  refine rule_eq_ok_iff.mpr ⟨?_, k.oneEach_tokens name capture raw, ?_⟩
  · rw [namesOf_tokens]
    exact List.nodup_singleton name
  · rw [← map_fst_boundOf, boundOf_tokens]
    rfl

theorem written_round : written (k.round name capture) = k.roundPattern name capture := by
  simp [round, roundPattern, written_append, written]

theorem written_tokens :
    written (k.tokens name capture (k.roundPattern name capture)) = k.pattern name capture := by
  simp [tokens, pattern, written_append, written, written_round, Suffix.written]

/-- The pattern is read as these tokens, if its texts have no brackets and braces. -/
theorem tokenize_pattern (hplain : ∀ t ∈ [k.before, k.opening, k.closing, k.after],
    ∀ c ∈ t, c ≠ '[' ∧ c ≠ ']' ∧ c ≠ '\x7b') (hname : IsName name)
    (hcapture : capture ≠ [] ∧ Balanced '\x7b' '\x7d' 0 capture) (delimiter : Text) :
    tokenize delimiter (k.pattern name capture) =
        .ok ⟨k.pattern name capture, k.tokens name capture (k.roundPattern name capture)⟩ ∧
      tokenize delimiter (k.roundPattern name capture) =
        .ok ⟨k.roundPattern name capture, k.round name capture⟩ := by
  simp only [List.forall_mem_cons] at hplain
  obtain ⟨hbefore, hopening, hclosing, hafter, -⟩ := hplain
  have hround : IsPrintable (k.round name capture) := by
    refine isPrintable_literals hopening ?_ (by simp [Token.isLiteral])
    rw [IsPrintable]
    exact ⟨⟨hname, hcapture⟩, isPrintable_literals_nil hclosing⟩
  have htokens : IsPrintable (k.tokens name capture (k.roundPattern name capture)) := by
    refine isPrintable_literals hbefore ?_ (by simp [Token.isLiteral])
    rw [IsPrintable, namesOf_round]
    exact ⟨⟨(k.written_round name capture).symm, rfl⟩, by simp, hround, isPrintable_literals_nil hafter⟩
  rw [← written_tokens, ← written_round]
  exact ⟨tokenize_written delimiter (written_round k name capture ▸ htokens), tokenize_written delimiter hround⟩

theorem spliceable_tokens (hclosed : depthAfter 0 (brackets (Lexeme.all capture)) = some 0)
    (hapart : Lexeme.all (capture ++ escape k.closing) = Lexeme.all capture ++ Lexeme.all (escape k.closing)) :
    Spliceable false (k.tokens name capture raw) := by
  have hrest (t : Text) (inside : Bool) : Spliceable inside (literals t) := by
    cases t <;> simp [literals, Spliceable]
  have hround : Spliceable true (k.round name capture) := by
    rw [round, spliceable_literals, Spliceable, regexOf_literals]
    exact ⟨fun _ => ⟨hclosed, hapart⟩, hrest _ _⟩
  rw [tokens, spliceable_literals, Spliceable]
  exact ⟨Or.inr hround, hrest _ _⟩

/-! ### Texts -/

variable {k name capture raw}

theorem item_mem_wordsBy {x : Text} (hx : x ∈ takenBy capture) :
    k.item x ∈ wordsBy takenBy (k.round name capture) := by
  have hclosing : k.closing ∈ wordsBy takenBy (literals k.closing) := by
    rw [← List.append_nil (literals k.closing), wordsBy_literals, wordsBy, mul_one]
    rfl
  rw [round, wordsBy_literals, wordsBy, item, List.append_assoc]
  exact Language.append_mem_mul rfl (Language.append_mem_mul hx hclosing)

/-- Items that the capture takes compose the text. -/
theorem composes_text {σ : Text → Option Text} {xs : List Text} (hxs : ∀ x ∈ xs, x ∈ takenBy capture)
    (hσ : σ name = some (k.run xs)) : Composes σ (k.tokens name capture raw) (k.text xs) := by
  have hrun : k.run xs ∈ (wordsBy takenBy (k.round name capture))∗ := by
    rw [run, List.flatMap_def]
    exact Language.join_mem_kstar (List.forall_mem_map.mpr fun x hx => item_mem_wordsBy (hxs x hx))
  rw [tokens, text, composes_literals]
  refine ⟨_, List.append_assoc _ _ _, .rounds rfl ?_ hrun ?_⟩
  · rw [namesOf_round]
    exact List.forall_mem_singleton.mpr hσ
  · rw [← List.append_nil (literals k.after), composes_literals]
    exact ⟨[], (List.append_nil _).symm, .nil⟩

theorem exists_of_composes {σ : Text → Option Text} {t : Text} (h : Composes σ (k.tokens name capture raw) t) :
    ∃ run, t = k.before ++ run ++ k.after ∧ σ name = some run := by
  rw [tokens, composes_literals] at h
  obtain ⟨u, rfl, h⟩ := h
  obtain ⟨run, rest, rfl, hσ, -, hrest⟩ := (composes_rounds rfl).mp h
  rw [← List.append_nil (literals k.after), composes_literals] at hrest
  obtain ⟨v, rfl, hv⟩ := hrest
  rw [composes_nil.mp hv, List.append_nil]
  exact ⟨run, (List.append_assoc _ _ _).symm, hσ name (by rw [namesOf_round]; exact List.mem_singleton_self _)⟩

/-- A text that does not end with a slash is composed in one way. -/
theorem readsOnce_tokens {t : Text} (h : t.getLast? ≠ some '/') : ReadsOnce (k.tokens name capture raw) t := by
  intro σ τ u hσ hτ hu other hother
  rw [namesOf_tokens, List.mem_singleton] at hother
  obtain ⟨run, rfl, hrun⟩ := exists_of_composes hσ
  obtain ⟨run', rfl, hrun'⟩ := exists_of_composes hτ
  rcases hu with hsame | hslash
  · rw [List.append_left_inj, List.append_right_inj] at hsame
    rw [hother, hrun, hrun', hsame]
  · rw [hslash, List.getLast?_concat] at h
    exact absurd rfl h

/-! ### The expression of a round -/

/-- The rule of a round is read as this expression. -/
theorem read_round (hc : IsPlainCapture capture) {e : Regex} (he : Regex.read capture = .ok e) :
    Regex.read (regexOf false (k.round name capture)) = .ok (k.splitter e) := by
  have hcapture := reads_enclosed (readsInside_of_bare he hc.bare 1) (mannerless_of_read he)
  have hclosing := hcapture.append (reads_escape 1 k.closing) (mannerless_escape k.closing)
  have hreads := (reads_escape 0 k.opening).append hclosing (mannerless_cons (by decide) _)
  have hregex : regexOf false (k.round name capture) =
      escape k.opening ++ ('(' :: capture ++ [')'] ++ escape k.closing) := by
    simp [round, regexOf_append, regexOf]
  rw [hregex, hreads.apart.read]
  simp [splitter, Function.comp_def]

theorem nil_not_mem_language_splitter (h : k.opening ++ k.closing ≠ []) (e : Regex) :
    [] ∉ (k.splitter e).language := by
  rw [splitter, language_seqAll_append, language_seqAll_cons, language_literal, language_literal]
  rintro ⟨a, rfl, b, ⟨x, -, y, rfl, rfl⟩, hnil⟩
  obtain ⟨ha, hb⟩ := List.append_eq_nil_iff.mp hnil
  exact h (List.append_eq_nil_iff.mpr ⟨ha, (List.append_eq_nil_iff.mp hb).2⟩)

theorem isRegular_splitter {e : Regex} (he : e.IsRegular) : (k.splitter e).IsRegular :=
  isRegular_seqAll_append.mpr ⟨isRegular_literal k.opening, he, isRegular_literal k.closing⟩

end Casing

/-! ### First ways -/

/-- A literal is passed at first as it stands there. -/
theorem exists_head?_ways_literal {text rest : Text} {s : Cursor} (hs : s.ahead = text ++ rest) :
    ∃ u : Cursor, u.ahead = rest ∧ u.captures = s.captures ∧ ∀ rs t, ((seqAll rs).ways u).head? = some t →
      ((seqAll (text.map (fun c => .oneOf (.single c false)) ++ rs)).ways s).head? = some t := by
  induction text generalizing s with
  | nil => exact ⟨s, hs, rfl, fun _ _ h => h⟩
  | cons c text ih =>
    have hfirst := @head?_ways_oneOf s (.single c false) _ _ hs (holds_single.mpr rfl)
    obtain ⟨u, hu, hcaptures, hall⟩ := ih (s := s.moveTo ⟨c :: s.behind, text ++ rest⟩) rfl
    exact ⟨u, hu, hcaptures, fun rs t h => head?_ways_seq hfirst (hall rs t h)⟩

/-- Whether an expression takes all of a text at first, if a slash or the end comes after it. -/
def TakesAll (e : Regex) (x : Text) : Prop :=
  ∀ (z : Text) (s : Cursor), (∀ c ∈ z.head?, c = '/') → s.ahead = x ++ z →
    ∃ t, (e.ways s).head? = some t ∧ t.ahead = z

theorem TakesAll.mem_language {e : Regex} {x : Text} (h : TakesAll e x) (he : e.IsRegular) : x ∈ e.language := by
  obtain ⟨t, ht, hend⟩ := h [] (.ofText x) nofun (List.append_nil x).symm
  exact (accepts_iff_mem_language he).mp ((accepts_iff e x).mpr ⟨t, List.mem_of_mem_head? ht, hend⟩)

theorem takesAll_runOf {x : Text} (hx : x ∈ without '/') : TakesAll (seqAll [runOf '/']) x := by
  intro z s hz hs
  obtain ⟨t, ht, hend⟩ := head?_ways_runOf hx hz hs
  exact ⟨t, head?_ways_seq ht head?_ways_empty, hend⟩

/-- The first way through a round captures an item that is taken as a whole. -/
theorem Casing.head?_ways_splitter {k : Casing} {e : Regex} {x y : Text} (hx : TakesAll e x)
    (hy : ∀ c ∈ (k.closing ++ y).head?, c = '/') {s : Cursor} (hs : s.ahead = k.item x ++ y) :
    ∃ t, ((k.splitter e).ways s).head? = some t ∧ t.ahead = y ∧ t.captured 1 = some x := by
  have hopening : s.ahead = k.opening ++ (x ++ (k.closing ++ y)) := by
    rw [hs, item]
    simp only [List.append_assoc]
  obtain ⟨u, hu, -, hfirst⟩ := exists_head?_ways_literal hopening
  obtain ⟨v, hv, hahead⟩ := hx _ u hy hu
  obtain ⟨t, ht, hcaptures, hlast⟩ := @exists_head?_ways_literal _ _ (v.enclose 1 u.toPlace v.toPlace) hahead
  have hclosing := hlast [] t head?_ways_empty
  rw [List.append_nil] at hclosing
  refine ⟨t, hfirst _ t (head?_ways_seq (head?_ways_capture hv) hclosing), ht, ?_⟩
  rw [Cursor.captured_of_captures hcaptures]
  exact Cursor.captured_enclose_self (hu.trans (by rw [hahead]))

/-! ### Cutting a run -/

/-- Whether an expression cuts a text into rounds that capture some items, where it takes each round at first. -/
inductive Cuts (splitter : Regex) : List Text → Text → Prop
  | nil : Cuts splitter [] []
  | round {x xs t rest} (hfirst : ∀ s : Cursor, s.ahead = t →
      ∃ u, (splitter.ways s).head? = some u ∧ u.ahead = rest ∧ u.captured 1 = some x)
    (hmoved : rest.length < t.length) (hrest : Cuts splitter xs rest) : Cuts splitter (x :: xs) t

theorem Cuts.searchFrom {splitter : Regex} (hregular : splitter.IsRegular) (hempty : [] ∉ splitter.language)
    {xs : List Text} {t : Text} (h : Cuts splitter xs t) {fuel : Nat} {emptyToo : Bool} {s : Cursor} (hs : s.ahead = t)
    (hfuel : t.length < fuel) :
    (splitter.searchFrom fuel emptyToo s).map (·.captured 1) = xs.map some := by
  induction h generalizing fuel emptyToo s with
  | nil =>
    obtain ⟨fuel, rfl⟩ := Nat.exists_eq_succ_of_ne_zero (Nat.ne_zero_of_lt hfuel)
    have hways : splitter.ways { s with captures := [] } = [] := by
      rw [List.eq_nil_iff_forall_not_mem]
      intro u hu
      obtain ⟨w, hw, hahead⟩ := exists_mem_language hregular hu
      replace hahead : [] = w ++ u.ahead := hs.symm.trans hahead
      exact hempty ((List.nil_eq_append_iff.mp hahead).1 ▸ hw)
    have hnone : splitter.matchHere emptyToo s = none := by
      rw [matchHere, attempt_eq_findSome?, hways]
      rfl
    simp [Regex.searchFrom, hnone, Place.advance, hs]
  | @round x xs t rest hfirst hmoved _ ih =>
    obtain ⟨fuel, rfl⟩ := Nat.exists_eq_succ_of_ne_zero (Nat.ne_zero_of_lt hfuel)
    obtain ⟨u, hu, hahead, hcaptured⟩ := hfirst { s with captures := [] } hs
    have hshorter : u.ahead.length < s.ahead.length := by rwa [hahead, hs]
    rw [Regex.searchFrom, matchHere_of_head? hu hshorter]
    simp only [List.map_cons, hcaptured]
    rw [ih hahead (by omega)]

theorem Cuts.search {splitter : Regex} (hregular : splitter.IsRegular) (hempty : [] ∉ splitter.language)
    {xs : List Text} {t : Text} (h : Cuts splitter xs t) :
    (splitter.search t).map (·.captured 1) = xs.map some := by
  refine h.searchFrom hregular hempty rfl ?_
  omega

/-- A run is cut into its items, if slashes stand between them. -/
theorem Casing.cuts_run {k : Casing} {e : Regex} {xs : List Text}
    (hslash : ∀ ys, ∀ c ∈ (k.closing ++ k.run ys).head?, c = '/') (hne : ∀ x ∈ xs, k.item x ≠ [])
    (htakes : ∀ x ∈ xs, TakesAll e x) : Cuts (k.splitter e) xs (k.run xs) := by
  induction xs with
  | nil => exact .nil
  | cons x xs ih =>
    rw [List.forall_mem_cons] at hne htakes
    have hrun : k.run (x :: xs) = k.item x ++ k.run xs := List.flatMap_cons
    rw [hrun]
    refine .round (fun s hs => head?_ways_splitter htakes.1 (hslash xs) hs) ?_ (ih hne.2 htakes.2)
    rw [List.length_append]
    have := List.length_pos_iff.mpr hne.1
    omega

end Routing.Pattern
