import Routing.Proofs.Pattern.Composing

/-!
# What a rule writes itself

The captures of a rule are those of its pattern, as they were written. Two kinds of fragments it writes itself: the
expression of a literal, and the capture of a variable that is written without one. Such a fragment says exactly what it
stands for, whatever characters are in it (`own_fragments_exact`).

Every character of a literal that would start another lexeme has a backslash before it, so the literal is read as one
item for each of its characters (`reads_escape`). In a class the characters of the delimiter are not taken for the
caret, the dash or the bracket that a class is written with (`classItems_classEscape`).
-/

namespace Routing.Pattern

open Regex
open scoped Computability

/-- Whether a text is an expression without captures that matches the texts with a property and no others, where looking
for a match is never refused. -/
def MatchesExactly (t : Text) (p : Text → Prop) : Prop :=
  ∃ e, Regex.read t = .ok e ∧ e.captureCount = 0 ∧
    ∀ s, ∃ found, sound e (e.matchWhole s) = .ok found ∧ (found.isSome = true ↔ p s)

/-- A text that is read as an expression for the words of a language matches them exactly. -/
theorem Takes.matchesExactly {t : Text} {e : Regex} {l : Language Char} {p : Text → Prop} (h : Takes e l)
    (he : Regex.read t = .ok e) (hp : ∀ s, s ∈ l ↔ p s) : MatchesExactly t p := by
  refine ⟨e, he, h.captures, fun s => ?_⟩
  have hsound : sound e (e.matchWhole s) = .ok (e.matchWhole s) :=
    sound_matchWhole (hasPossessive_of_isRegular h.regular) s
  have hword : (e.matchWhole s).isSome = true ↔ s ∈ e.language := accepts_iff_mem_language h.regular
  rw [h.language] at hword
  exact ⟨e.matchWhole s, hsound, hword.trans (hp s)⟩

/-! ### Escaped literals -/

theorem takes_literal (t : Text) : Takes (seqAll (t.map fun c => .oneOf (.single c false))) {t} :=
  ⟨isRegular_literal t, captureCount_literal t, language_literal t⟩

theorem read_escape (t : Text) : Regex.read (escape t) = .ok (seqAll (t.map fun c => .oneOf (.single c false))) := by
  have hread := (reads_escape 0 t).apart.read
  rwa [List.map_map] at hread

/-- An escaped text matches the text. -/
theorem matchesExactly_escape (t : Text) : MatchesExactly (escape t) (· = t) :=
  (takes_literal t).matchesExactly (read_escape t) fun _ => Set.mem_singleton_iff

/-! ### Default captures -/

theorem takes_runWithout (delimiter : Text) : Takes (runWithout delimiter) (withoutAny delimiter) :=
  ⟨trivial, rfl, language_runWithout delimiter⟩

/-- A default capture matches the texts with at least one character and none of the delimiter. -/
theorem matchesExactly_defaultCapture {delimiter : Text} (h : delimiter ≠ []) :
    MatchesExactly (defaultCapture delimiter) (· ∈ withoutAny delimiter) :=
  (takes_runWithout delimiter).single.matchesExactly (reads_defaultCapture 0 h).apart.read fun _ => Iff.rfl

/-! ### Literals and default captures -/

/-- The expression of a literal text matches that text only. A default capture matches the texts with at least one
character that do not hold the delimiter. -/
theorem own_fragments_exact :
    (∀ t : Text, MatchesExactly (escape t) (· = t)) ∧
      ∀ d : Char, MatchesExactly (defaultCapture [d]) fun s => s ≠ [] ∧ d ∉ s := by
  refine ⟨matchesExactly_escape, fun d => ?_⟩
  have hcapture := matchesExactly_defaultCapture (List.cons_ne_nil d [])
  rw [withoutAny_singleton] at hcapture
  exact hcapture

/-- Characters that mean something in an expression or in a class get a backslash. -/
example : escape "/a.b-c|".toList = "/a\\.b-c\\|".toList ∧ defaultCapture ['^'] = "[^\\^]+".toList := by
  decide

end Routing.Pattern
