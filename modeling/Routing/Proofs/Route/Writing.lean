import Routing.Proofs.Pattern.Spelling
import Routing.Proofs.Pattern.Splicing
import Routing.Proofs.Text.Percent
import Routing.Route.Path

/-!
# Paths are spelled

The path of a route is spelled with the percent-coded values of its variables (`write_withRun`): the coded form of a
text has no slash, so it is a value of the default capture.
-/

namespace Routing

open Pattern

/-! ### Coded texts -/

theorem plain_of_isPathChar {c : Char} (h : isPathChar c = true) : c ≠ '%' ∧ c.toNat < 0x80 := by
  rw [isPathChar, Bool.or_eq_true, List.contains_iff_mem] at h
  rcases h with hunreserved | hmark
  · exact Text.plain_of_isUnreserved hunreserved
  · simp only [List.mem_cons, List.not_mem_nil, or_false] at hmark
    rcases hmark with rfl | rfl | rfl | rfl | rfl <;> decide

/-- The coded form of a text. -/
def coded (t : Text) : Text := Text.percentEncode isPathChar t

theorem percentDecode_coded (t : Text) : Text.percentDecode (coded t) = t :=
  Text.percentDecode_percentEncode (fun _ => plain_of_isPathChar) t

theorem coded_mem_without {t : Text} (h : t ≠ []) : coded t ∈ without '/' :=
  ⟨Text.percentEncode_ne_nil h, Text.not_mem_percentEncode (by decide) (by decide) (by decide) t⟩

theorem encodeValue_str (t : Text) : encodeValue (.str t) = coded t := by
  simp [encodeValue, Value.parts, Text.join, coded]

/-- The coded form of a value is written where the capture takes it. -/
theorem writeValue_of_encodeValue {name capture : Text} {v : Value} (h : encodeValue v ∈ takenBy capture) :
    writeValue name capture v = .ok (encodeValue v) := by
  obtain ⟨r, found, hr, hfound⟩ := h
  rw [writeValue, readRegex_eq_ok.mpr hr]
  simp only [bind, Except.bind, hfound]
  rfl

theorem writeValue_of_mem_takenBy {name capture t : Text} (h : coded t ∈ takenBy capture) :
    writeValue name capture (.str t) = .ok (coded t) := by
  rw [← encodeValue_str] at h ⊢
  exact writeValue_of_encodeValue h

/-- The default capture takes every text without a character of the delimiter but the empty one. -/
theorem takenBy_defaultCapture {delimiter : Text} (h : delimiter ≠ []) :
    takenBy (defaultCapture delimiter) = withoutAny delimiter := by
  have hread := (reads_defaultCapture 0 h).apart.read
  rw [takenBy_of_read hread ⟨trivial, trivial⟩]
  exact (language_seqAll_singleton _).trans (language_runWithout delimiter)

theorem takenBy_slash : takenBy (defaultCapture ['/']) = without '/' :=
  (takenBy_defaultCapture (List.cons_ne_nil _ _)).trans (withoutAny_singleton '/')

theorem coded_mem_takenBy {t : Text} (h : t ≠ []) : coded t ∈ takenBy (defaultCapture ['/']) :=
  takenBy_slash ▸ coded_mem_without h

theorem writeValue_str {name t : Text} (h : t ≠ []) :
    writeValue name (defaultCapture ['/']) (.str t) = .ok (coded t) :=
  writeValue_of_mem_takenBy (coded_mem_takenBy h)

/-! ### Written tokens -/

/-- What a path holds for the value of a variable: a coded text, or the items of a list with a slash before each. -/
def codedValue : Value → Text
  | .list items => runText (items.map encodeValue)
  | v => encodeValue v

/-- What a path holds for a variable. -/
def codedParam (params : Mapping Value) (name : Text) : Text := codedValue ((params.get? name).getD .null)

/-- Whether some parameters give a text to each of some variables, not an empty one. -/
def GivesTexts (params : Mapping Value) (names : List Text) : Prop :=
  ∀ name ∈ names, ∃ t, t ≠ [] ∧ params.get? name = some (.str t)

/-- Whether some parameters give a list of texts to a variable, none of them empty. -/
def GivesItems (params : Mapping Value) (name : Text) : Prop :=
  ∃ items : List Text, [] ∉ items ∧ params.get? name = some (.list (items.map .str))

theorem codedParam_str {params : Mapping Value} {name t : Text} (h : params.get? name = some (.str t)) :
    codedParam params name = coded t := by
  rw [codedParam, h]
  exact encodeValue_str t

theorem codedParam_list {params : Mapping Value} {name : Text} {items : List Text}
    (h : params.get? name = some (.list (items.map .str))) : codedParam params name = runText (items.map coded) := by
  have hitems : (items.map Value.str).map encodeValue = items.map coded := by
    rw [List.map_map]
    exact List.map_congr_left fun t _ => encodeValue_str t
  rw [codedParam, h, Option.getD_some, codedValue, hitems]

theorem coded_items_mem_without {items : List Text} (h : [] ∉ items) : ∀ v ∈ items.map coded, v ∈ without '/' := by
  rw [List.forall_mem_map]
  intro t ht
  exact coded_mem_without fun hnil => h (hnil ▸ ht)

namespace PathFor

/-- The text of one round. -/
theorem write_item (w : PathFor) (absentAllowed : Bool) (params : Mapping Value) {name capture t : Text}
    (h : coded t ∈ takenBy capture) :
    w.write absentAllowed (params.put name (.str t)) [] [.literal ['/'], .variable name capture] =
      .ok ('/' :: coded t) := by
  have hget : (params.put name (.str t)).get? name = some (.str t) := by rw [Mapping.get?_put, if_pos rfl]
  rw [write, write, hget]
  simp only [writeValue_of_mem_takenBy h, bind, Except.bind, write]
  rfl

theorem writeEach_eq_ok {write : Value → Except RouteError Text} {f : Value → Text} {items : List Value}
    (h : ∀ item ∈ items, write item = .ok (f item)) : writeEach write items = .ok (items.flatMap f) := by
  induction items with
  | nil => rfl
  | cons item items ih =>
    rw [List.forall_mem_cons] at h
    rw [writeEach, h.1, ih h.2]
    rfl

/-- The text of a run of items, before what comes after it. -/
theorem write_run (w : PathFor) {suffix : Suffix} {params : Mapping Value} {name raw capture : Text} {items : List Text}
    (hitems : ∀ t ∈ items, coded t ∈ takenBy capture) (hget : params.get? name = some (.list (items.map .str)))
    (hsuffix : items ≠ [] ∨ suffix.mayBeAbsent = true) (absentAllowed : Bool) (before : Text) (rest : List Token) :
    w.write absentAllowed params before (.group suffix (some name) raw [.literal ['/'], .variable name capture] :: rest) =
      w.write absentAllowed params (before ++ runText (items.map coded)) rest := by
  have heach : writeEach (fun item => w.write suffix.mayBeAbsent (params.put name item) []
      [.literal ['/'], .variable name capture]) (items.map .str) =
      .ok ((items.map .str).flatMap fun item => '/' :: encodeValue item) := by
    refine writeEach_eq_ok (List.forall_mem_map.mpr fun t ht => ?_)
    rw [encodeValue_str]
    exact write_item w _ params (hitems t ht)
  have hrun : runText (items.map coded) = (items.map .str).flatMap fun item => '/' :: encodeValue item := by
    simp only [runText, List.flatMap_map, encodeValue_str]
  have hgiven : ((items.map Value.str).isEmpty && !suffix.mayBeAbsent) = false := by
    rcases hsuffix with hne | habsent
    · simp [hne]
    · simp [habsent]
  rw [write, hget, hrun]
  simp only [Option.getD_some, Value.items, hgiven, Bool.false_eq_true, if_false, heach, bind, Except.bind]

/-- The path of a route is written, and it is spelled with its coded parameters. -/
theorem write_withRun (w : PathFor) {params : Mapping Value} {free : Bool} {steps : List Token}
    (hsteps : Spaced free steps) {last : Option Text} (htexts : GivesTexts params (namesOf steps))
    (hitems : ∀ name ∈ last, GivesItems params name) (before : Text) :
    ∃ t, Spells (withRun steps last) ((namesOf (withRun steps last)).map (codedParam params)) t ∧
      w.write false params before (withRun steps last) = .ok (before ++ t) := by
  induction hsteps generalizing before with
  | nil =>
    cases last with
    | none =>
      refine ⟨[], ?_, ?_⟩
      · simpa [withRun, namesOf] using Spells.nil
      · simp [withRun, write]
    | some name =>
      obtain ⟨items, hne, hget⟩ := hitems name rfl
      have htaken : ∀ t ∈ items, coded t ∈ takenBy (defaultCapture ['/']) :=
        fun t ht => coded_mem_takenBy fun hnil => hne (hnil ▸ ht)
      refine ⟨runText (items.map coded), ?_, (write_run w htaken hget (Or.inr rfl) false before []).trans (by rw [write])⟩
      have hnames : namesOf (withRun [] (some name)) = [name] := by
        simp [withRun, runToken, namesOf, Token.names]
      rw [hnames, List.map_singleton, codedParam_list hget]
      exact .run (coded_items_mem_without hne)
  | @literal free text rest hrest ih =>
    rw [withRun_cons, namesOf, Token.names, List.nil_append]
    obtain ⟨t, hspells, hwrite⟩ := ih (by simpa [namesOf, Token.names] using htexts) (before ++ text)
    refine ⟨text ++ t, .literal hspells, ?_⟩
    rw [write, hwrite, List.append_assoc]
  | var hrest ih =>
    rw [namesOf, Token.names, List.singleton_append, GivesTexts, List.forall_mem_cons] at htexts
    obtain ⟨⟨value, hne, hget⟩, htexts⟩ := htexts
    rw [withRun_cons, namesOf, Token.names, List.singleton_append, List.map_cons, codedParam_str hget]
    obtain ⟨t, hspells, hwrite⟩ := ih htexts (before ++ coded value)
    refine ⟨coded value ++ t, .var (coded_mem_without hne) hspells, ?_⟩
    rw [write, hget]
    simp only [writeValue_str hne, bind, Except.bind]
    rw [hwrite, List.append_assoc]

end PathFor

end Routing
