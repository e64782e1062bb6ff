import Routing.Proofs.Pattern.Expression
import Routing.Proofs.Regex.Capture
import Routing.Proofs.Route.Assign

/-!
# The words of a pattern

What a pattern says is a language: a literal is its text, a variable any of its values, tokens in a row are words in
a row, and a group is there as often as its suffix allows. With default captures the regular expression of the
pattern matches exactly those words (`compiled_matches_words`).
-/

namespace Routing.Pattern

open Regex
open scoped Computability

/-- The words of a language as often as a suffix allows. -/
def Suffix.times : Suffix → Language Char → Language Char
  | optional, l => 1 + l
  | star, l => l∗
  | plus, l => l * l∗

/-- The texts that some tokens describe, where every variable has its value in `values`. -/
def wordsOf (values : Language Char) : List Token → Language Char
  | [] => 1
  | .literal text :: rest => {text} * wordsOf values rest
  | .variable _ _ :: rest => values * wordsOf values rest
  | .group suffix _ _ children :: rest => suffix.times (wordsOf values children) * wordsOf values rest

/-- The texts with at least one character that have no `d`. -/
def without (d : Char) : Language Char := {w | w ≠ [] ∧ d ∉ w}

/-- The texts with at least one character that have no character of a delimiter. -/
def withoutAny (delimiter : Text) : Language Char := {w | w ≠ [] ∧ ∀ c ∈ w, c ∉ delimiter}

/-! ### The languages of the items -/

theorem holds_range {c x : Char} : (ClassItem.range c.toNat c.toNat).holds x.toNat = true ↔ x = c := by
  simp only [ClassItem.holds, Bool.and_eq_true, decide_eq_true_eq]
  constructor
  · rintro ⟨h₁, h₂⟩
    exact Char.toNat_inj.mp (by omega)
  · rintro rfl
    exact ⟨Nat.le_refl _, Nat.le_refl _⟩

theorem holds_single {c x : Char} : (CharSet.single c false).holds x = true ↔ x = c := by
  rw [← holds_range]
  simp [CharSet.holds, CharSet.lists, CharSet.single]

theorem holds_othersThan {delimiter : Text} {x : Char} : (othersThan delimiter).holds x = true ↔ x ∉ delimiter := by
  have hlisted : (delimiter.map fun c => ClassItem.range c.toNat c.toNat).any (·.holds x.toNat) = true ↔
      x ∈ delimiter := by
    simp only [List.any_eq_true, List.mem_map, exists_exists_and_eq_and, holds_range, exists_eq_right']
  rw [← hlisted]
  simp [CharSet.holds, CharSet.lists, othersThan]

theorem holds_complement {d x : Char} : (⟨[.range d.toNat d.toNat], true, false⟩ : CharSet).holds x = true ↔ x ≠ d :=
  (@holds_othersThan [d] x).trans (not_congr List.mem_singleton)

/-- The words of a run are those whose characters are all in its set. -/
theorem language_run (set : CharSet) :
    (Regex.loop (.oneOf set) 1 none false).language = {w | w ≠ [] ∧ ∀ c ∈ w, set.holds c = true} := by
  -- a word of the loop has one round for each of its characters
  have hstar : ∀ w, w ∈ (Regex.oneOf set).language∗ ↔ ∀ c ∈ w, set.holds c = true := by
    intro w
    rw [Language.mem_kstar]
    constructor
    · rintro ⟨rounds, rfl, hall⟩ c hc
      obtain ⟨v, hv, hcv⟩ := List.mem_flatten.mp hc
      obtain ⟨x, hx, rfl⟩ := mem_language_oneOf.mp (hall v hv)
      rwa [List.mem_singleton.mp hcv]
    · intro hw
      refine ⟨w.map fun c => [c], by rw [← List.flatMap_def, List.flatMap_singleton'], ?_⟩
      rw [List.forall_mem_map]
      exact fun c hc => mem_language_oneOf.mpr ⟨c, hw c hc, rfl⟩
  have hrun : (Regex.loop (.oneOf set) 1 none false).language =
      (Regex.oneOf set).language * (Regex.oneOf set).language∗ := by
    rw [Regex.language_loop, pow_one]
    rfl
  ext w
  rw [hrun, Language.mem_mul]
  show _ ↔ w ≠ [] ∧ ∀ c ∈ w, set.holds c = true
  constructor
  · rintro ⟨u, hu, v, hv, rfl⟩
    obtain ⟨c, hc, rfl⟩ := mem_language_oneOf.mp hu
    exact ⟨List.cons_ne_nil c v, List.forall_mem_cons.mpr ⟨hc, (hstar v).mp hv⟩⟩
  · rintro ⟨hne, hall⟩
    obtain ⟨c, w, rfl⟩ := List.exists_cons_of_ne_nil hne
    rw [List.forall_mem_cons] at hall
    exact ⟨[c], mem_language_oneOf.mpr ⟨c, hall.1, rfl⟩, w, (hstar w).mpr hall.2, rfl⟩

theorem language_runWithout (delimiter : Text) : (runWithout delimiter).language = withoutAny delimiter := by
  rw [runWithout, language_run]
  ext w
  exact and_congr_right fun _ => forall₂_congr fun _ _ => holds_othersThan

theorem withoutAny_singleton (d : Char) : withoutAny [d] = without d := by
  ext w
  refine and_congr_right fun _ => ?_
  simp only [List.mem_singleton]
  exact ⟨fun hall hd => hall d hd rfl, fun hd c hc h => hd (h ▸ hc)⟩

theorem language_runOf (d : Char) : (runOf d).language = without d :=
  (language_runWithout [d]).trans (withoutAny_singleton d)

theorem language_seqAll_cons (r : Regex) (a : List Regex) :
    (seqAll (r :: a)).language = r.language * (seqAll a).language :=
  rfl

theorem language_seqAll_append (a b : List Regex) :
    (seqAll (a ++ b)).language = (seqAll a).language * (seqAll b).language := by
  induction a with
  | nil => exact (one_mul _).symm
  | cons r a ih => rw [List.cons_append, language_seqAll_cons, language_seqAll_cons, ih, mul_assoc]

theorem language_seqAll_singleton (r : Regex) : (seqAll [r]).language = r.language :=
  mul_one _

theorem captureCount_seqAll_append (a b : List Regex) :
    (seqAll (a ++ b)).captureCount = (seqAll a).captureCount + (seqAll b).captureCount := by
  induction a with
  | nil => simp [seqAll, captureCount]
  | cons r a ih =>
    simp only [seqAll, List.cons_append, List.foldr_cons, captureCount] at ih ⊢
    omega

theorem language_literal (t : Text) : (seqAll (t.map fun c => .oneOf (.single c false))).language = {t} := by
  induction t with
  | nil => rfl
  | cons c t ih =>
    rw [List.map_cons, language_seqAll_cons, ih]
    ext w
    simp only [Language.mem_mul, mem_language_oneOf, holds_single]
    constructor
    · rintro ⟨-, ⟨x, rfl, rfl⟩, v, hv, rfl⟩
      rw [Set.mem_singleton_iff.mp hv]
      rfl
    · intro hw
      exact ⟨[c], ⟨c, rfl, rfl⟩, t, rfl, (Set.mem_singleton_iff.mp hw).symm⟩

theorem isRegular_literal (text : Text) : (seqAll (text.map fun c => .oneOf (.single c false))).IsRegular := by
  apply isRegular_seqAll
  simp only [List.mem_map]
  rintro r ⟨c, -, rfl⟩
  trivial

theorem language_suffix_loop (suffix : Suffix) (body : Regex) :
    (suffix.loop body).language = suffix.times body.language := by
  cases suffix with
  | optional =>
    rw [Suffix.loop, Regex.language_loop, Suffix.least, pow_zero, one_mul]
    exact pow_one _
  | star =>
    rw [Suffix.loop, Regex.language_loop, Suffix.least, pow_zero, one_mul]
    rfl
  | plus =>
    rw [Suffix.loop, Regex.language_loop, Suffix.least, pow_one]
    rfl

/-- The words of the expression of some tokens are the words of the tokens. -/
theorem language_exprOf (d : Char) (inside : Bool) (index : Nat) (ts : List Token) :
    (exprOf d inside index ts).language = wordsOf (without d) ts := by
  induction ts using tokens_induction generalizing inside index with
  | nil =>
    rw [exprOf, itemsOf, wordsOf]
    rfl
  | literal text rest ih =>
    rw [exprOf, itemsOf, wordsOf, List.map_append, language_seqAll_append, List.map_map, ← language_literal, ← ih]
    rfl
  | var name text rest ih =>
    rw [exprOf, itemsOf, wordsOf]
    split
    · rw [List.map_cons, language_seqAll_cons, language_runOf, ← ih]
      rfl
    · rw [List.map_cons, language_seqAll_cons, ← ih inside (index + 1)]
      show (seqAll [runOf d]).language * _ = _
      rw [language_seqAll_singleton, language_runOf]
      rfl
  | group suffix binds raw children rest ihc ih =>
    rw [exprOf, itemsOf, wordsOf]
    split
    · rw [List.map_cons, language_seqAll_cons, ← ih inside (index + 1), ← ihc true (index + 1)]
      show (seqAll [suffix.loop (exprOf d true (index + 1) children)]).language * _ = _
      rw [language_seqAll_singleton, language_suffix_loop]
      rfl
    · rw [List.map_cons, language_seqAll_cons, ← ih, ← ihc (inside || suffix.repeats) index]
      show (suffix.loop (exprOf d _ index children)).language * _ = _
      rw [language_suffix_loop]
      rfl

/-! ### Captures of any kind -/

/-- The texts that some tokens describe, where every variable has the values of its capture. -/
def wordsBy (values : Text → Language Char) : List Token → Language Char
  | [] => 1
  | .literal text :: rest => {text} * wordsBy values rest
  | .variable _ c :: rest => values c * wordsBy values rest
  | .group suffix _ _ children :: rest => suffix.times (wordsBy values children) * wordsBy values rest

theorem Suffix.times_mono (suffix : Suffix) {l m : Language Char} (h : l ≤ m) : suffix.times l ≤ suffix.times m := by
  have hstar : l∗ ≤ m∗ := kstar_mono h
  cases suffix with
  | optional => exact add_le_add (le_refl (1 : Language Char)) h
  | star => exact hstar
  | plus => exact mul_le_mul' h hstar

theorem wordsBy_append (values : Text → Language Char) (a b : List Token) :
    wordsBy values (a ++ b) = wordsBy values a * wordsBy values b := by
  induction a with
  | nil => rw [List.nil_append, wordsBy, one_mul]
  | cons token a ih => cases token <;> simp only [List.cons_append, wordsBy, ih, mul_assoc]

theorem wordsBy_le {values : Text → Language Char} {l : Language Char} {ts : List Token}
    (h : ∀ c ∈ capturesOf ts, values c ≤ l) : wordsBy values ts ≤ wordsOf l ts := by
  induction ts using tokens_induction with
  | nil =>
    rw [wordsBy, wordsOf]
  | literal text rest ih =>
    rw [capturesOf] at h
    rw [wordsBy, wordsOf]
    exact mul_le_mul' le_rfl (ih h)
  | var name text rest ih =>
    rw [capturesOf, List.forall_mem_cons] at h
    rw [wordsBy, wordsOf]
    exact mul_le_mul' h.1 (ih h.2)
  | group suffix binds raw children rest ihc ih =>
    rw [capturesOf, List.forall_mem_append] at h
    rw [wordsBy, wordsOf]
    exact mul_le_mul' (suffix.times_mono (ihc h.1)) (ih h.2)

/-- The texts that a capture takes. -/
def takenBy (text : Text) : Language Char :=
  {w | ∃ r found, Regex.read text = .ok r ∧ sound r (r.matchWhole w) = .ok (some found)}

theorem found_of_sound {r : Regex} {found : Option Regex.Cursor} {s : Regex.Cursor}
    (h : sound r found = .ok (some s)) : found = some s ∧ r.crosses s = false := by
  rw [sound] at h
  split at h
  · cases h
  · next hcrosses =>
    rw [Except.ok.injEq] at h
    subst h
    exact ⟨rfl, Bool.eq_false_iff.mpr hcrosses⟩

/-! ### Patterns -/

/-- The regular expression of a pattern with default captures is one, and matching it against a whole text is never
refused and succeeds for the words of the pattern only. -/
theorem compiled_matches_words {d : Char} {pattern : Text} {t : Tokenized} {rule : Rule}
    (ht : tokenize [d] pattern = .ok t) (hr : (ruleTraced [d] pattern).outcome = .ok rule)
    (hd : ∀ c ∈ capturesOf t.tokens, c = defaultCapture [d]) :
    ∃ r, Regex.read rule.regex = .ok r ∧
      ∀ s, ∃ found, sound r (r.matchWhole s) = .ok found ∧
        (found.isSome = true ↔ s ∈ wordsOf (without d) t.tokens) := by
  have hrule : t.rule = .ok rule := by
    obtain ⟨t', ht', hr'⟩ := ruleTraced_eq_ok.mp hr
    rw [ht, Except.ok.injEq] at ht'
    rwa [ht']
  have hregex : rule.regex = regexOf false t.tokens := by
    rw [tokensRule_eq_ok hrule]
    rfl
  refine ⟨exprOf d false 0 t.tokens, by rw [hregex, read_regexOf hd], ?_⟩
  intro s
  have hregular := isRegular_exprOf d false 0 t.tokens
  refine ⟨_, sound_matchWhole (hasPossessive_of_isRegular hregular) s, ?_⟩
  rw [← language_exprOf d false 0]
  exact accepts_iff_mem_language hregular

/-- Such a pattern with a group in a group: `x[a[-{v}]+]*`. -/
theorem nested_groups_match_words :
    ∃ r, Regex.read "x((?:a(?:-[^/]+)+)*)".toList = .ok r ∧
      ∀ s, ∃ found, sound r (r.matchWhole s) = .ok found ∧
        (found.isSome = true ↔ s ∈ wordsOf (without '/')
          [.literal ['x'], .group .star (some ['v']) "a[-\x7bv\x7d]+".toList
            [.literal ['a'], .group .plus (some ['v']) "-\x7bv\x7d".toList
              [.literal ['-'], .variable ['v'] (defaultCapture ['/'])]]]) :=
  @compiled_matches_words '/' "x[a[-\x7bv\x7d]+]*".toList ⟨"x[a[-\x7bv\x7d]+]*".toList, _⟩
    ⟨_, [⟨['v'], some "a[-\x7bv\x7d]+".toList⟩]⟩ (by cbv) (by cbv) (by simp [capturesOf])

end Routing.Pattern
