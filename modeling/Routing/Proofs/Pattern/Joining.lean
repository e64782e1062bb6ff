import Routing.Proofs.Pattern.Acceptance
import Routing.Proofs.Pattern.Outline
import Routing.Proofs.Pattern.Source
import Routing.Proofs.Route.Assign

/-!
# Patterns that are joined

A pattern whose braces are closed, a slash and any other pattern are cut into tokens as if each was alone, but for
literal texts that meet at the slash (`loosen_of_slash`). What a rule says does not depend on where a literal text is
cut, so the rule of `p/f` is that of `p`, a slash and that of `f`, and it is refused where `f` is or where both have a
variable of one name (`ruleTraced_of_slash`).
-/

namespace Routing.Pattern

/-! ### Literal texts cut into characters -/

/-- The characters of a literal text as tokens of their own. -/
def letters (text : Text) : List Token := text.map fun c => .literal [c]

/-- Some tokens with every literal text between them cut into its characters. -/
def loosen : List Token → List Token
  | [] => []
  | .literal text :: rest => letters text ++ loosen rest
  | .variable name capture :: rest => .variable name capture :: loosen rest
  | .group suffix binds raw children :: rest => .group suffix binds raw children :: loosen rest

theorem letters_append (a b : Text) : letters (a ++ b) = letters a ++ letters b := List.map_append

theorem loosen_append (a b : List Token) : loosen (a ++ b) = loosen a ++ loosen b := by
  induction a using tokens_induction with
  | nil => rfl
  | literal text rest ih => rw [List.cons_append, loosen, loosen, ih, List.append_assoc]
  | var name capture rest ih => rw [List.cons_append, loosen, loosen, ih, List.cons_append]
  | group suffix binds raw children rest ihc ih => rw [List.cons_append, loosen, loosen, ih, List.cons_append]

theorem letters_cons (c : Char) (text : Text) : letters (c :: text) = .literal [c] :: letters text := rfl

theorem regexOf_letters (inside : Bool) (text : Text) : regexOf inside (letters text) = escape text := by
  induction text with
  | nil => rw [letters, List.map_nil, regexOf, escape, List.flatMap_nil]
  | cons c text ih => rw [letters_cons, regexOf, ih, ← escape_append, List.singleton_append]

theorem varsOf_letters (inside : Option Text) (text : Text) : varsOf inside (letters text) = [] := by
  induction text with
  | nil => rw [letters, List.map_nil, varsOf]
  | cons c text ih => rw [letters_cons, varsOf, ih]

theorem oneEach_letters (text : Text) : OneEach (letters text) := by
  induction text with
  | nil => rw [letters, List.map_nil, OneEach]; trivial
  | cons c text ih => rwa [letters_cons, OneEach]

theorem varsOf_append (inside : Option Text) (a b : List Token) :
    varsOf inside (a ++ b) = varsOf inside a ++ varsOf inside b := by
  induction a using tokens_induction with
  | nil => simp [varsOf]
  | literal text rest ih => rw [List.cons_append, varsOf, varsOf, ih]
  | var name capture rest ih => rw [List.cons_append, varsOf, varsOf, ih, List.cons_append]
  | group suffix binds raw children rest ihc ih => rw [List.cons_append, varsOf, varsOf, ih, List.append_assoc]

theorem oneEach_append {a b : List Token} : OneEach (a ++ b) ↔ OneEach a ∧ OneEach b := by
  induction a using tokens_induction with
  | nil => simp [OneEach]
  | literal text rest ih => rw [List.cons_append, OneEach, OneEach, ih]
  | var name capture rest ih => rw [List.cons_append, OneEach, OneEach, ih]
  | group suffix binds raw children rest ihc ih => rw [List.cons_append, OneEach, OneEach, ih, and_assoc]

theorem regexOf_loosen (inside : Bool) (ts : List Token) : regexOf inside (loosen ts) = regexOf inside ts := by
  induction ts using tokens_induction with
  | nil => rfl
  | literal text rest ih => rw [loosen, regexOf_append, regexOf_letters, ih, regexOf]
  | var name capture rest ih => rw [loosen, regexOf, regexOf, ih]
  | group suffix binds raw children rest ihc ih => rw [loosen, regexOf, regexOf, ih]

theorem varsOf_loosen (inside : Option Text) (ts : List Token) : varsOf inside (loosen ts) = varsOf inside ts := by
  induction ts using tokens_induction with
  | nil => rfl
  | literal text rest ih => rw [loosen, varsOf_append, varsOf_letters, ih, varsOf, List.nil_append]
  | var name capture rest ih => rw [loosen, varsOf, varsOf, ih]
  | group suffix binds raw children rest ihc ih => rw [loosen, varsOf, varsOf, ih]

theorem oneEach_loosen {ts : List Token} : OneEach (loosen ts) ↔ OneEach ts := by
  induction ts using tokens_induction with
  | nil => rfl
  | literal text rest ih => rw [loosen, oneEach_append, ih, OneEach, and_iff_right (oneEach_letters text)]
  | var name capture rest ih => rw [loosen, OneEach, OneEach, ih]
  | group suffix binds raw children rest ihc ih => rw [loosen, OneEach, OneEach, ih]

/-! ### Texts without groups -/

theorem loosen_literalOf (text : Text) : loosen (literalOf text) = letters text.reverse := by
  cases text with
  | nil => rfl
  | cons c text => rw [literalOf, List.isEmpty_cons, if_neg Bool.false_ne_true, loosen, loosen, List.append_nil]

theorem loosen_runTokens (default literal t : Text) :
    loosen (runTokens default literal t) = letters literal.reverse ++ loosen (runTokens default [] t) := by
  induction t generalizing literal with
  | nil => simp [runTokens, loosen_literalOf, letters]
  | cons c t ih =>
    have hplain : loosen (runTokens default (c :: literal) t) =
        letters literal.reverse ++ loosen (runTokens default [c] t) := by
      rw [ih, ih [c], List.reverse_cons, letters_append, List.append_assoc]
      rfl
    rw [runTokens, runTokens]
    split
    · split
      · rw [loosen_append, loosen_append, loosen_literalOf, loosen_literalOf]
        rfl
      · exact hplain
    · exact hplain

/-- A text whose braces are closed is cut into tokens as if it was alone. -/
theorem loosen_runTokens_append (default literal : Text) {t : Text} (h : Braced t) (y : Text) :
    loosen (runTokens default literal (t ++ y)) =
      loosen (runTokens default literal t) ++ loosen (runTokens default [] y) := by
  fun_induction runTokens default literal t with
  | case1 literal => rw [List.nil_append, loosen_runTokens, loosen_literalOf]
  | case2 literal rest name capture after hvar ih =>
    -- a brace that is closed here is closed at the same place before more text
    have hclose := h [] rest rfl
    have hafter : Braced after := by
      obtain ⟨front, hfront⟩ := suffix_of_variableAt hvar
      have := h.of_cons
      rw [← hfront] at this
      exact this.suffix
    have hvar' : variableAt default (rest ++ y) = some (name, capture, after ++ y) := by
      rw [variableAt_append default hclose, hvar]
      rfl
    rw [List.cons_append, runTokens, if_pos rfl]
    split
    · next heq =>
      rw [hvar', Option.some.injEq, Prod.mk.injEq, Prod.mk.injEq] at heq
      obtain ⟨rfl, rfl, rfl⟩ := heq
      rw [loosen_append, loosen, loosen_append, loosen, ih hafter, List.append_assoc, List.cons_append]
    · next heq => simp [hvar'] at heq
  | case3 literal rest hvar ih =>
    have hvar' : variableAt default (rest ++ y) = none := by
      rw [variableAt_append default (h [] rest rfl), hvar]
      rfl
    rw [List.cons_append, runTokens, if_pos rfl]
    split
    · next heq => simp [hvar'] at heq
    · exact ih h.of_cons
  | case4 literal c rest hc ih =>
    rw [List.cons_append, runTokens, if_neg hc]
    exact ih h.of_cons

/-! ### Outlines -/

namespace Part

/-- The inside of an open bracket with some finished pieces, in reverse order, before all others. -/
def Open.onto (o : Open) (below : List Part) : Open := { o with parts := o.parts ++ below }

theorem pieces_onto (o : Open) (below : List Part) : (o.onto below).pieces = below.reverse ++ o.pieces := by
  by_cases h : o.buffer.isEmpty = true <;> simp [Open.pieces, Open.onto, h]

theorem rest_onto (o : Open) (below : List Part) : (o.onto below).rest = o.rest.onto below := by
  rw [Open.rest, pieces_onto, Open.rest, Open.onto, List.reverse_append, List.reverse_reverse]

/-- Whether two stacks of open brackets are the same but for some finished pieces at the bottom of the second one. -/
inductive Onto (below : List Part) : List Open → List Open → Prop
  | bottom (o : Open) : Onto below [o] [o.onto below]
  | above (o : Open) {stack stack' : List Open} (h : Onto below stack stack') : Onto below (o :: stack) (o :: stack')

/-- What is finished at the bottom of the stack comes first in an outline, and changes nothing else. -/
theorem scan_onto {braces : Nat} {inner inner' : Open} {outer outer' : List Open} {below : List Part}
    (h : Onto below (inner :: outer) (inner' :: outer')) (t : Text) :
    scan braces inner' outer' t = (scan braces inner outer t).map (below.reverse ++ ·) := by
  fun_induction scan braces inner outer t generalizing inner' outer' with
  | case1 braces inner outer houter =>
    cases h with
    | bottom => rw [scan, pieces_onto, Option.map_some]; rfl
    | above _ h => cases h <;> simp at houter
  | case2 braces inner outer houter =>
    cases h with
    | bottom => simp at houter
    | above _ h => cases h <;> simp [scan]
  | case3 braces inner outer c rest hc ih =>
    rw [scan_cons, if_pos hc]
    cases h with
    | bottom => exact ih (.bottom _)
    | above _ h => exact ih (.above _ h)
  | case4 braces inner outer rest hc ih =>
    rw [scan_cons, if_neg hc, if_pos rfl]
    cases h with
    | bottom => exact ih (.above _ (rest_onto inner below ▸ .bottom _))
    | above _ h => exact ih (.above _ (.above _ h))
  | case5 braces inner rest h₁ h₂ =>
    rw [scan_cons, if_neg h₁, if_neg h₂, if_pos rfl]
    cases h with
    | bottom => rfl
    | above _ h => cases h
  | case6 braces inner rest around others h₁ h₂ ih =>
    rw [scan_cons, if_neg h₁, if_neg h₂, if_pos rfl]
    cases h with
    | above _ h =>
      cases h with
      | bottom => exact ih (.bottom _)
      | above _ h => exact ih (.above _ h)
  | case7 braces inner outer c rest h₁ h₂ h₃ ih =>
    rw [scan_cons, if_neg h₁, if_neg h₂, if_neg h₃]
    cases h with
    | bottom => exact ih (.bottom _)
    | above _ h => exact ih (.above _ h)

/-- What is finished when a bracket is opened comes first in an outline. -/
theorem scan_rest (o : Open) (t : Text) : scan 0 {} [o.rest] t = (scan 0 {} [{}] t).map (o.pieces ++ ·) := by
  have hrest : o.rest = ({} : Open).onto o.pieces.reverse := rfl
  rw [hrest, scan_onto (.above _ (.bottom _)), List.reverse_reverse]

end Part

/-- The tokens of an outline with literal texts cut into characters. -/
def looseTokens (default : Text) (parts : List Part) : List Token := loosen (partsTokens default parts).1

theorem looseTokens_append (default : Text) (a b : List Part) :
    looseTokens default (a ++ b) = looseTokens default a ++ looseTokens default b := by
  rw [looseTokens, partsTokens_append, loosen_append, looseTokens, looseTokens]

theorem looseTokens_pieces (default : Text) (o : Part.Open) : looseTokens default o.pieces =
    looseTokens default o.parts.reverse ++ loosen (runTokens default [] o.buffer.reverse) := by
  rw [Part.Open.pieces]
  split
  · next h => rw [List.isEmpty_iff.mp h, List.reverse_nil, runTokens, loosen_literalOf]; simp [letters]
  · rw [List.reverse_cons, looseTokens_append]
    congr 1
    simp [looseTokens, partsTokens, partTokens]

/-- Text whose braces are closed is cut off what follows it. -/
theorem looseTokens_pieces_append (default : Text) {buffer : Text} (hbuffer : Braced buffer.reverse)
    (parts : List Part) (inner : Text) : looseTokens default (Part.Open.pieces ⟨parts, inner ++ buffer⟩) =
      looseTokens default (Part.Open.pieces ⟨parts, buffer⟩) ++ looseTokens default (Part.Open.pieces ⟨[], inner⟩) := by
  simp only [looseTokens_pieces, List.reverse_append, loosen_runTokens_append default [] hbuffer, List.append_assoc]
  rfl

/-- A scan that goes on after some text outside of groups finds what a scan that starts there does. -/
theorem map_scan_append (default : Text) {buffer : Text} (hbuffer : Braced buffer.reverse) (parts : List Part)
    (braces : Nat) (inner t : Text) :
    (Part.scan braces ⟨parts, inner ++ buffer⟩ [] t).map (looseTokens default) =
      ((Part.scan braces ⟨[], inner⟩ [] t).map (looseTokens default)).map
        (looseTokens default (Part.Open.pieces ⟨parts, buffer⟩) ++ ·) := by
  induction t generalizing braces inner with
  | nil =>
    rw [Part.scan, Part.scan]
    exact congrArg some (looseTokens_pieces_append default hbuffer parts inner)
  | cons c t ih =>
    rw [Part.scan_cons, Part.scan_cons]
    split
    · exact ih _ (c :: inner)
    · split
      · rw [Part.scan_rest, Part.scan_rest, Option.map_map, Option.map_map, Option.map_map]
        congr 1
        funext more
        simp only [Function.comp_apply, looseTokens_append, looseTokens_pieces_append default hbuffer,
          List.append_assoc]
      · split
        · rfl
        · exact ih _ (c :: inner)

/-! ### Patterns -/

/-- Whether some tokens, with literal texts cut into characters, are those of a pattern. -/
def CutsInto (delimiter pattern : Text) (ts : List Token) : Prop :=
  ∃ t, tokenize delimiter pattern = .ok t ∧ loosen t.tokens = ts

theorem cutsInto_iff {delimiter pattern : Text} {ts : List Token} : CutsInto delimiter pattern ts ↔
    (Part.scan 0 {} [] pattern).map (looseTokens (defaultCapture delimiter)) = some ts := by
  rw [CutsInto, Option.map_eq_some_iff]
  constructor
  · rintro ⟨t, ht, rfl⟩
    obtain ⟨parts, hparts, htokens⟩ := tokenize_eq_ok ht
    exact ⟨parts, hparts, by rw [looseTokens, htokens]⟩
  · rintro ⟨parts, hparts, rfl⟩
    exact ⟨_, tokenize_of_scan hparts, rfl⟩

/-- A pattern whose braces are closed is cut into tokens as if it was alone, and so is what is behind a slash after it. -/
theorem cutsInto_of_slash {delimiter p f : Text} {before ts : List Token} (hp : Braced p)
    (hbefore : CutsInto delimiter p before) : CutsInto delimiter (p ++ '/' :: f) ts ↔
      ∃ after, CutsInto delimiter f after ∧ ts = before ++ .literal ['/'] :: after := by
  simp only [cutsInto_iff] at hbefore ⊢
  obtain ⟨parts, hparts, rfl⟩ := Option.map_eq_some_iff.mp hbefore
  obtain ⟨⟨finished, buffer⟩, rfl, hsuffix, hscan⟩ := Part.scan_append hparts (foldl_of_braced hp)
  have hbuffer : Braced buffer.reverse := by
    obtain ⟨front, hfront⟩ := hsuffix
    exact Braced.suffix (a := front) (by rw [hfront]; simpa using hp)
  -- the scan of the whole goes on from the first pattern, and then from the slash
  have hfirst := map_scan_append (defaultCapture delimiter) hbuffer finished 0 [] ('/' :: f)
  have hslash := @map_scan_append (defaultCapture delimiter) ['/'] (by decide) [] 0 [] f
  have hopen : Part.scan 0 ⟨[], []⟩ [] ('/' :: f) = Part.scan 0 ⟨[], [] ++ ['/']⟩ [] f := by
    rw [Part.scan_cons, if_neg (by decide), if_neg (by decide), if_neg (by decide)]
    rfl
  have hliteral : looseTokens (defaultCapture delimiter) (Part.Open.pieces ⟨[], ['/']⟩) = [.literal ['/']] := by
    rw [looseTokens_pieces]
    simp [looseTokens, partsTokens, loosen, runTokens, literalOf, letters]
  rw [hscan _ ⟨by simp, by simp⟩, ← List.nil_append buffer, hfirst, hopen, hslash, hliteral, Option.map_map]
  simp [eq_comm]

/-- The text of the rule of `p/more` starts with that of `p` and a slash. -/
theorem regexOf_of_slash {delimiter p more : Text} {t u : Tokenized} (hp : Braced p)
    (ht : tokenize delimiter p = .ok t) (hu : tokenize delimiter (p ++ '/' :: more) = .ok u) :
    ∃ rest, regexOf false u.tokens = regexOf false t.tokens ++ '/' :: rest := by
  obtain ⟨after, -, hafter⟩ := (cutsInto_of_slash hp ⟨t, ht, rfl⟩).mp ⟨u, hu, rfl⟩
  refine ⟨regexOf false after, ?_⟩
  rw [← regexOf_loosen, hafter, regexOf_append, regexOf_loosen, regexOf]
  rfl

/-- The rule of a pattern is what its tokens say, wherever its literal texts are cut. -/
theorem ruleTraced_eq_ok_iff {delimiter p : Text} {r : Rule} : (ruleTraced delimiter p).outcome = .ok r ↔
    ∃ ts, CutsInto delimiter p ts ∧ (namesOf ts).Nodup ∧ OneEach ts ∧ r = ⟨regexOf false ts, varsOf none ts⟩ := by
  have hnames : ∀ ts, namesOf (loosen ts) = namesOf ts := fun ts => by
    rw [← map_name_varsOf none, varsOf_loosen, map_name_varsOf]
  simp only [ruleTraced_eq_ok, rule_eq_ok_iff, CutsInto]
  constructor
  · rintro ⟨t, ht, hnodup, hone, rfl⟩
    refine ⟨_, ⟨t, ht, rfl⟩, by rwa [hnames], oneEach_loosen.mpr hone, ?_⟩
    rw [regexOf_loosen, varsOf_loosen]
  · rintro ⟨_, ⟨t, ht, rfl⟩, hnodup, hone, rfl⟩
    refine ⟨t, ht, by rwa [hnames] at hnodup, oneEach_loosen.mp hone, ?_⟩
    rw [regexOf_loosen, varsOf_loosen]

/-- The rule of a pattern whose braces are closed, a slash and another pattern is that of the one, a slash and that of
the other. It is there exactly if the other one is and they have no variable of one name. -/
theorem ruleTraced_of_slash {delimiter p f : Text} {r joined : Rule} (hp : Braced p)
    (hr : (ruleTraced delimiter p).outcome = .ok r) : (ruleTraced delimiter (p ++ '/' :: f)).outcome = .ok joined ↔
      ∃ g, (ruleTraced delimiter f).outcome = .ok g ∧ r.names.Disjoint g.names ∧
        joined = ⟨r.regex ++ '/' :: g.regex, r.vars ++ g.vars⟩ := by
  obtain ⟨before, hbefore, hnodup, hone, rfl⟩ := ruleTraced_eq_ok_iff.mp hr
  have hslash : ∀ after, regexOf false (before ++ .literal ['/'] :: after) =
      regexOf false before ++ '/' :: regexOf false after := fun after => by
    rw [regexOf_append, regexOf]
    rfl
  have hvars : ∀ after, varsOf none (before ++ .literal ['/'] :: after) = varsOf none before ++ varsOf none after :=
    fun after => by rw [varsOf_append, varsOf]
  have hboth : ∀ after, namesOf (before ++ .literal ['/'] :: after) = namesOf before ++ namesOf after := fun after => by
    rw [namesOf_append, namesOf]
    rfl
  simp only [ruleTraced_eq_ok_iff, cutsInto_of_slash hp hbefore, Rule.names, map_name_varsOf]
  constructor
  · rintro ⟨_, ⟨after, hafter, rfl⟩, hnodup', hone', rfl⟩
    rw [hboth, List.nodup_append'] at hnodup'
    rw [oneEach_append, OneEach] at hone'
    refine ⟨_, ⟨after, hafter, hnodup'.2.1, hone'.2, rfl⟩, ?_, by rw [hslash, hvars]⟩
    simpa only [map_name_varsOf] using hnodup'.2.2
  · rintro ⟨g, ⟨after, hafter, hnodup', hone', rfl⟩, hdisjoint, rfl⟩
    refine ⟨_, ⟨after, hafter, rfl⟩, ?_, ?_, by rw [hslash, hvars]⟩
    · rw [hboth, List.nodup_append']
      exact ⟨hnodup, hnodup', by simpa only [map_name_varsOf] using hdisjoint⟩
    · rw [oneEach_append, OneEach]
      exact ⟨hone, hone'⟩

end Routing.Pattern
