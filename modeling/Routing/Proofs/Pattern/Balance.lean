import Routing.Proofs.Pattern.Groups

/-!
# Balanced brackets

A text is `Balanced` when it closes nothing that it did not open, and leaves nothing open. The text that `closingBrace`
finds before a closing brace is the balanced one (`closingBrace_eq_some_iff`). What is left of a pattern without its
runs in braces is what is `outside` of them, and the scan of a pattern comes to its end exactly where the brackets
outside are balanced (`isSome_scan_iff`).
-/

namespace Routing.Pattern

/-- Whether a text with `depth` open brackets before it closes none that is not open, and all of them in the end. -/
structure Balanced (opening closing : Char) (depth : Nat) (t : Text) : Prop where
  /-- Along the way, no more are closed than there are. -/
  sane : ∀ front, front <+: t → front.count closing ≤ depth + front.count opening
  /-- At the end, all are closed. -/
  settled : t.count closing = depth + t.count opening

instance (opening closing : Char) (depth : Nat) (t : Text) : Decidable (Balanced opening closing depth t) :=
  decidable_of_iff ((∀ front ∈ t.inits, front.count closing ≤ depth + front.count opening) ∧
      t.count closing = depth + t.count opening)
    ⟨fun h => ⟨fun front hfront => h.1 front ((List.mem_inits _ _).mpr hfront), h.2⟩,
      fun h => ⟨fun front hfront => h.sane front ((List.mem_inits _ _).mp hfront), h.settled⟩⟩

/-! ### One character -/

section Balanced

variable {opening closing c : Char} {depth : Nat} {t : Text}

theorem balanced_nil : Balanced opening closing depth [] ↔ depth = 0 := by
  constructor
  · intro h
    simpa using h.settled.symm
  · rintro rfl
    exact ⟨fun front hfront => by simp [List.prefix_nil.mp hfront], rfl⟩

/-- A first character leaves as many open as it opens more than it closes. -/
theorem balanced_cons_of_count {next : Nat} (hcount : depth + [c].count opening = next + [c].count closing) :
    Balanced opening closing depth (c :: t) ↔ Balanced opening closing next t := by
  have hcons (x : Char) (s : Text) : (c :: s).count x = [c].count x + s.count x := by
    show ([c] ++ s).count x = _
    exact List.count_append
  constructor
  · intro h
    refine ⟨fun front hfront => ?_, ?_⟩
    · have := h.sane (c :: front) (List.prefix_cons_inj c |>.mpr hfront)
      rw [hcons closing front, hcons opening front] at this
      omega
    · have := h.settled
      rw [hcons closing t, hcons opening t] at this
      omega
  · intro h
    refine ⟨fun front hfront => ?_, ?_⟩
    · rcases List.prefix_cons_iff.mp hfront with rfl | ⟨rest, rfl, hrest⟩
      · simp
      · have := h.sane rest hrest
        rw [hcons closing rest, hcons opening rest]
        omega
    · have := h.settled
      rw [hcons closing t, hcons opening t]
      omega

theorem balanced_opening (hne : opening ≠ closing) :
    Balanced opening closing depth (opening :: t) ↔ Balanced opening closing (depth + 1) t :=
  balanced_cons_of_count (by simp [hne])

theorem balanced_closing (hne : opening ≠ closing) :
    Balanced opening closing (depth + 1) (closing :: t) ↔ Balanced opening closing depth t :=
  balanced_cons_of_count (by simp [hne.symm])

theorem not_balanced_closing (hne : opening ≠ closing) : ¬Balanced opening closing 0 (closing :: t) := by
  intro h
  have := h.sane [closing] ⟨t, rfl⟩
  simp [hne.symm] at this

theorem balanced_other (ho : c ≠ opening) (hc : c ≠ closing) :
    Balanced opening closing depth (c :: t) ↔ Balanced opening closing depth t :=
  balanced_cons_of_count (by simp [ho, hc])

/-- A text without either of the two characters makes no difference. -/
theorem balanced_append (s : Text) (ho : opening ∉ s) (hc : closing ∉ s) :
    Balanced opening closing depth (s ++ t) ↔ Balanced opening closing depth t := by
  induction s with
  | nil => exact Iff.rfl
  | cons c s ih =>
    rw [List.mem_cons, not_or] at ho hc
    rw [List.cons_append, balanced_other (Ne.symm ho.1) (Ne.symm hc.1), ih ho.2 hc.2]

end Balanced

/-! ### Braces -/

theorem balanced_of_closingBrace {depth : Nat} {t inside after : Text}
    (h : closingBrace depth t = some (inside, after)) : Balanced '\x7b' '\x7d' depth inside := by
  induction t generalizing depth inside with
  | nil => simp [closingBrace] at h
  | cons c t ih =>
    rw [closingBrace] at h
    split at h
    · next hc =>
      simp only [Option.some.injEq, Prod.mk.injEq] at h
      rw [← h.1]
      exact balanced_nil.mpr hc.2
    · next hc =>
      obtain ⟨⟨i, a⟩, hfound, he⟩ := Option.map_eq_some_iff.mp h
      simp only [Prod.mk.injEq] at he
      obtain ⟨rfl, rfl⟩ := he
      have hi := ih hfound
      split at hi
      · next hclose =>
        subst hclose
        obtain ⟨n, rfl⟩ := Nat.exists_eq_succ_of_ne_zero fun h0 => hc ⟨rfl, h0⟩
        exact (balanced_closing (by decide)).mpr hi
      · next hclose =>
        split at hi
        · next hopen =>
          subst hopen
          exact (balanced_opening (by decide)).mpr hi
        · next hopen => exact (balanced_other hopen hclose).mpr hi

theorem closingBrace_of_balanced {depth : Nat} {inside : Text} (h : Balanced '\x7b' '\x7d' depth inside)
    (after : Text) : closingBrace depth (inside ++ '\x7d' :: after) = some (inside, after) := by
  induction inside generalizing depth with
  | nil => simp [closingBrace, balanced_nil.mp h]
  | cons c inside ih =>
    rw [List.cons_append, closingBrace]
    by_cases hclose : c = '\x7d'
    · subst hclose
      obtain _ | depth := depth
      · exact absurd h (not_balanced_closing (by decide))
      · rw [balanced_closing (by decide)] at h
        simp [ih h]
    · by_cases hopen : c = '\x7b'
      · subst hopen
        rw [balanced_opening (by decide)] at h
        simp [ih h]
      · rw [balanced_other hopen hclose] at h
        simp [hclose, hopen, ih h]

/-- The text before the brace that closes all is the balanced one. -/
theorem closingBrace_eq_some_iff {depth : Nat} {t inside after : Text} :
    closingBrace depth t = some (inside, after) ↔
      t = inside ++ '\x7d' :: after ∧ Balanced '\x7b' '\x7d' depth inside := by
  constructor
  · intro h
    exact ⟨eq_of_closingBrace h, balanced_of_closingBrace h⟩
  · rintro ⟨rfl, hbalanced⟩
    exact closingBrace_of_balanced hbalanced after

/-- What is left of a text after the brace that closes all the open ones, nothing where there is none. -/
def afterBraces : Nat → Text → Text
  | 0, t => t
  | depth + 1, t => ((closingBrace depth t).map Prod.snd).getD []

theorem length_afterBraces (braces : Nat) (t : Text) : (afterBraces braces t).length ≤ t.length := by
  cases braces with
  | zero => exact Nat.le_refl _
  | succ depth =>
    cases h : closingBrace depth t with
    | none => simp [afterBraces, h]
    | some found =>
      have := length_closingBrace h
      simp only [afterBraces, h, Option.map_some, Option.getD_some]
      omega

theorem afterBraces_nil (braces : Nat) : afterBraces braces [] = [] := by
  cases braces <;> rfl

theorem afterBraces_cons {braces : Nat} (hbraces : 0 < braces) (c : Char) (t : Text) :
    afterBraces braces (c :: t) = afterBraces (Part.bracesAfter braces c) t := by
  obtain ⟨depth, rfl⟩ := Nat.exists_eq_succ_of_ne_zero (Nat.pos_iff_ne_zero.mp hbraces)
  rw [afterBraces, closingBrace]
  by_cases hclose : c = '\x7d'
  · subst hclose
    cases depth with
    | zero => rfl
    | succ depth => simp [Part.bracesAfter, afterBraces, Function.comp_def]
  · by_cases hopen : c = '\x7b'
    · subst hopen
      simp [Part.bracesAfter, afterBraces, Function.comp_def]
    · simp [hclose, hopen, Part.bracesAfter, afterBraces, Function.comp_def]

/-- A pattern without its runs in braces: a run goes from an opening brace to the one that matches it, or to the end
of the pattern where none does. -/
def outside (t : Text) : Text :=
  match t with
  | [] => []
  | c :: rest => if c = '\x7b' then outside (afterBraces 1 rest) else c :: outside rest
termination_by t.length
decreasing_by
  · exact Nat.lt_succ_of_le (length_afterBraces 1 rest)
  · simp

/-! ### The scan of a pattern -/

namespace Part

theorem balanced_outside_readSuffix {depth : Nat} (t : Text) :
    Balanced '[' ']' depth (outside (readSuffix t).2) ↔ Balanced '[' ']' depth (outside t) := by
  unfold readSuffix
  split
  · rw [outside, if_neg (by decide), balanced_other (by decide) (by decide)]
  · rw [outside, if_neg (by decide), balanced_other (by decide) (by decide)]
  · exact Iff.rfl

/-- A scan comes to the end of a text exactly where the brackets outside of braces are balanced, those that are open
already being counted. -/
theorem isSome_scan_iff (braces : Nat) (inner : Open) (outer : List Open) (t : Text) :
    (scan braces inner outer t).isSome = true ↔ Balanced '[' ']' outer.length (outside (afterBraces braces t)) := by
  fun_induction scan braces inner outer t with
  | case1 braces inner outer hempty =>
    rw [afterBraces_nil, outside, balanced_nil, List.isEmpty_iff.mp hempty]
    simp
  | case2 braces inner outer hopen =>
    rw [afterBraces_nil, outside, balanced_nil, List.length_eq_zero_iff, ← List.isEmpty_iff]
    simp [hopen]
  | case3 braces inner outer c rest hc ih =>
    rw [ih]
    rcases Nat.eq_zero_or_pos braces with rfl | hpos
    · obtain rfl : c = '\x7b' := hc.resolve_left (Nat.lt_irrefl 0)
      rw [afterBraces, outside, if_pos rfl]
      rfl
    · rw [afterBraces_cons hpos]
  | case4 braces inner outer rest hc ih =>
    obtain rfl : braces = 0 := by omega
    rw [ih, afterBraces, afterBraces, outside, if_neg (by decide), balanced_opening (by decide)]
    rfl
  | case5 braces inner rest h₁ h₂ =>
    obtain rfl : braces = 0 := by omega
    rw [afterBraces, outside, if_neg (by decide)]
    exact iff_of_false (by simp) (not_balanced_closing (by decide))
  | case6 braces inner rest around others h₁ h₂ ih =>
    obtain rfl : braces = 0 := by omega
    rw [ih, afterBraces, afterBraces, balanced_outside_readSuffix, outside, if_neg (by decide), List.length_cons,
      balanced_closing (by decide)]
  | case7 braces inner outer c rest h₁ h₂ h₃ ih =>
    obtain rfl : braces = 0 := by omega
    have hbrace : c ≠ '\x7b' := fun h => h₁ (Or.inr h)
    rw [ih, afterBraces, afterBraces, outside, if_neg hbrace, balanced_other h₂ h₃]

end Part

end Routing.Pattern
