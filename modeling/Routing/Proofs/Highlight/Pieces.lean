import Mathlib
import Routing.Highlight
import Routing.Proofs.Text.Cutting

/-!
# The pieces of a pattern

Cutting goes on to the end of a text and loses nothing of it (`flatMap_text_cut`, `exists_iterate_advance`). In every
mode there is a rule for every character, but for the newline that ends a query suffix (`exists_rule`), so no piece is
an error (`kind_ne_error_of_mem_step`). The colours of the pieces stand around their texts, line by line, and taking them
out gives the texts back (`withoutColours_shown`).
-/

namespace Routing.Highlight

/-! ### Rules -/

/-- The kinds of the pieces of a shape. -/
def Shape.kinds : Shape → List PieceKind
  | one kind _ => [kind]
  | run kind _ => [kind]
  | named kind _ => [.punctuation, kind, .punctuation]
  | repeated => [.punctuation, .operator]
  | question => [.keyword]

theorem Shape.map_kind_of_take {s : Shape} {t rest : Text} {pieces : List Piece}
    (h : s.take t = some (pieces, rest)) : pieces.map Piece.kind = s.kinds := by
  cases s with
  | one kind among =>
    dsimp only [take] at h
    split at h
    · split at h <;> cases h
      rfl
    · cases h
  | run kind among =>
    dsimp only [take] at h
    split at h
    · split at h <;> cases h
      rfl
    · cases h
  | named kind last =>
    dsimp only [take] at h
    split at h
    · split at h
      · split at h <;> cases h
        rfl
      · cases h
    · cases h
  | repeated =>
    dsimp only [take] at h
    split at h
    · split at h <;> cases h
      rfl
    · cases h
  | question =>
    dsimp only [take] at h
    split at h
    · split at h <;> cases h
      rfl
    · cases h

theorem error_notMem_kinds {modes : List Mode} {rule : Rule} (h : rule ∈ rulesOf modes) :
    .error ∉ rule.shape.kinds := by
  have hall : ∀ rules ∈ [outerRules, captureRules, nestedRules, queryRules], ∀ rule ∈ rules,
      .error ∉ rule.shape.kinds := by
    simp [outerRules, captureRules, nestedRules, queryRules, Shape.kinds]
  rcases modes with _ | ⟨_ | _ | _, modes⟩
  · exact hall outerRules (by simp) rule h
  · exact hall captureRules (by simp) rule h
  · exact hall nestedRules (by simp) rule h
  · exact hall queryRules (by simp) rule h

/-- In every mode there is a rule for every character, but for a newline in a query suffix. -/
theorem exists_rule (modes : List Mode) {c : Char} (rest : Text) (h : modes.head? = some .query → c ≠ '\n') :
    ∃ rule ∈ rulesOf modes, (rule.shape.take (c :: rest)).isSome = true := by
  rcases modes with _ | ⟨_ | _ | _, modes⟩
  · by_cases hplain : isPlain c = true
    · exact ⟨⟨.run .text isPlain, .stay⟩, by simp [rulesOf, outerRules], by simp [Shape.take, hplain]⟩
    · have hline : isInLine c = true := by
        rw [isInLine, bne_iff_ne]
        rintro rfl
        exact hplain (by decide)
      exact ⟨⟨.one .text isInLine, .stay⟩, by simp [rulesOf, outerRules], by simp [Shape.take, hline]⟩
  · by_cases hopen : c = '\x7b'
    · exact ⟨_, List.mem_cons_self, by simp [Shape.take, hopen]⟩
    · by_cases hclose : c = '\x7d'
      · exact ⟨_, List.mem_cons_of_mem _ List.mem_cons_self, by simp [Shape.take, hclose]⟩
      · exact ⟨⟨.run .capture isNoBrace, .stay⟩, by simp [rulesOf, captureRules],
          by simp [Shape.take, isNoBrace, hopen, hclose]⟩
  · by_cases hopen : c = '\x7b'
    · exact ⟨_, List.mem_cons_self, by simp [Shape.take, hopen]⟩
    · by_cases hclose : c = '\x7d'
      · exact ⟨_, List.mem_cons_of_mem _ List.mem_cons_self, by simp [Shape.take, hclose]⟩
      · exact ⟨⟨.run .capture isNoBrace, .stay⟩, by simp [rulesOf, nestedRules],
          by simp [Shape.take, isNoBrace, hopen, hclose]⟩
  · exact ⟨⟨.one .text isInLine, .stay⟩, by simp [rulesOf, queryRules], by simp [Shape.take, isInLine, h rfl]⟩

/-- A step in which no rule fits ends all modes at a newline. -/
theorem step_of_applyFirst_eq_none {modes : List Mode} {c : Char} {rest : Text}
    (h : applyFirst modes (c :: rest) (rulesOf modes) = none) :
    c = '\n' ∧ step modes c rest = ([⟨.whitespace, [c]⟩], [], rest) := by
  have hline : c = '\n' := by
    by_contra hne
    obtain ⟨rule, hrule, htake⟩ := exists_rule modes rest fun _ => hne
    rw [applyFirst, List.findSome?_eq_none_iff] at h
    obtain ⟨taken, htaken⟩ := Option.isSome_iff_exists.mp htake
    simpa [htaken] using h rule hrule
  refine ⟨hline, ?_⟩
  rw [step, h]
  exact if_pos hline

theorem kind_ne_error_of_mem_step {modes : List Mode} {c : Char} {rest : Text} :
    ∀ p ∈ (step modes c rest).1, p.kind ≠ .error := by
  intro p hp
  cases hfirst : applyFirst modes (c :: rest) (rulesOf modes) with
  | none =>
    rw [(step_of_applyFirst_eq_none hfirst).2, List.mem_singleton] at hp
    rw [hp]
    nofun
  | some s =>
    obtain ⟨rule, hrule, htake, -⟩ := applyFirst_eq_some hfirst
    have hstep : step modes c rest = s := by rw [step, hfirst]
    rw [hstep] at hp
    have hkind : p.kind ∈ rule.shape.kinds := Shape.map_kind_of_take htake ▸ List.mem_map_of_mem hp
    rintro herror
    exact error_notMem_kinds hrule (herror ▸ hkind)

/-! ### Runs -/

/-- What holds of the pieces of every step holds of all pieces. -/
theorem forall_mem_cut {P : Piece → Prop} (h : ∀ modes c rest, ∀ p ∈ (step modes c rest).1, P p) (modes : List Mode)
    (t : Text) : ∀ p ∈ cut modes t, P p := by
  fun_induction cut modes t with
  | case1 modes => exact nofun
  | case2 modes c rest ih => exact List.forall_mem_append.mpr ⟨h modes c rest, ih⟩

theorem flatMap_text_cut (modes : List Mode) (t : Text) : (cut modes t).flatMap Piece.text = t := by
  fun_induction cut modes t with
  | case1 modes => rfl
  | case2 modes c rest ih => rw [List.flatMap_append, ih, (eq_of_step modes c rest).1]

/-- A text that is being cut: the pieces so far, the modes, and what is left of the text. -/
structure Progress where
  done : List Piece := []
  modes : List Mode := []
  left : Text

/-- One more step; there is none at the end of the text. -/
def Progress.advance (s : Progress) : Progress :=
  match s.left with
  | [] => s
  | c :: rest =>
    { done := s.done ++ (step s.modes c rest).1, modes := (step s.modes c rest).2.1, left := (step s.modes c rest).2.2 }

/-- Cutting comes to the end of a text after no more steps than the text has characters. -/
theorem exists_iterate_advance (done : List Piece) (modes : List Mode) (t : Text) :
    ∃ n ≤ t.length, ∃ after, Progress.advance^[n] ⟨done, modes, t⟩ = ⟨done ++ cut modes t, after, []⟩ := by
  fun_induction cut modes t generalizing done with
  | case1 modes => exact ⟨0, Nat.le_refl _, modes, by rw [List.append_nil]; rfl⟩
  | case2 modes c rest ih =>
    obtain ⟨n, hn, after, hafter⟩ := ih (done ++ (step modes c rest).1)
    refine ⟨n + 1, Nat.succ_le_succ (hn.trans (length_step modes c rest)), after, ?_⟩
    rw [Function.iterate_succ_apply, ← List.append_assoc, ← hafter]
    rfl

/-! ### Colours -/

/-- Whether a character is one of those that write the number of a colour. -/
def isColourCode (c : Char) : Bool := c.isDigit || c == ';'

/-- What is after the letter that ends a colour, given what is after the escape. -/
def afterColour : Text → Option Text
  | '[' :: rest =>
    match rest.dropWhile isColourCode with
    | 'm' :: after => some after
    | _ => none
  | _ => none

theorem afterColour_eq_some {t after : Text} (h : afterColour t = some after) :
    ∃ code, (∀ c ∈ code, isColourCode c = true) ∧ t = '[' :: code ++ 'm' :: after := by
  unfold afterColour at h
  split at h
  · next rest =>
    split at h
    · next hdrop =>
      refine ⟨rest.takeWhile isColourCode, fun c hc => List.mem_takeWhile_imp hc, ?_⟩
      rw [← Option.some.inj h, List.cons_append, ← hdrop, List.takeWhile_append_dropWhile]
    · cases h
  · cases h

theorem afterColour_code {code : Text} (h : ∀ c ∈ code, isColourCode c = true) (after : Text) :
    afterColour ('[' :: code ++ 'm' :: after) = some after := by
  rw [List.cons_append, afterColour, List.dropWhile_append_of_pos h, List.dropWhile_cons_of_neg (by decide)]
  rfl

/-- A text of a terminal without its colours. -/
def withoutColours (t : Text) : Text :=
  match t with
  | [] => []
  | c :: rest =>
    match _h : if c = '\x1b' then afterColour rest else none with
    | some after => withoutColours after
    | none => c :: withoutColours rest
termination_by t.length
decreasing_by
  · split at _h
    · obtain ⟨code, -, hrest⟩ := afterColour_eq_some _h
      simp only [hrest, List.length_cons, List.length_append]
      omega
    · cases _h
  · simp

theorem withoutColours_of_none {c : Char} {t : Text} (h : (if c = '\x1b' then afterColour t else none) = none) :
    withoutColours (c :: t) = c :: withoutColours t := by
  rw [withoutColours]
  split
  · next hafter =>
    rw [h] at hafter
    cases hafter
  · rfl

theorem withoutColours_append {t : Text} (h : '\x1b' ∉ t) (y : Text) :
    withoutColours (t ++ y) = t ++ withoutColours y := by
  induction t with
  | nil => rfl
  | cons c t ih =>
    rw [List.mem_cons, not_or] at h
    rw [List.cons_append, withoutColours_of_none (if_neg (Ne.symm h.1)), ih h.2, List.cons_append]

theorem withoutColours_code {code : Text} (h : ∀ c ∈ code, isColourCode c = true) (after : Text) :
    withoutColours ('\x1b' :: '[' :: code ++ 'm' :: after) = withoutColours after := by
  have hafter := afterColour_code h after
  rw [List.cons_append, withoutColours]
  split
  · next hfound =>
    rw [if_pos rfl, hafter] at hfound
    rw [Option.some.inj hfound]
  · next hfound =>
    rw [if_pos rfl, hafter] at hfound
    cases hfound

/-- A newline does not go on with a colour that is not finished. -/
theorem afterColour_append_newlines {t : Text} (h : afterColour t = none) (k : Nat) :
    afterColour (t ++ List.replicate k '\n') = none := by
  rw [Option.eq_none_iff_forall_ne_some]
  intro after hafter
  obtain ⟨code, hcode, heq⟩ := afterColour_eq_some hafter
  rw [List.append_cons] at heq
  rcases List.append_eq_append_iff.mp heq with ⟨tail, htail, hnewlines⟩ | ⟨tail, htail, -⟩
  · rcases List.eq_nil_or_concat' tail with rfl | ⟨tail, c, rfl⟩
    · rw [List.append_nil] at htail
      rw [← htail, afterColour_code hcode] at h
      cases h
    -- the letter that ends the colour is no newline
    · obtain rfl : 'm' = c := by simpa using List.append_inj_right' (htail.trans (List.append_assoc ..).symm) rfl
      have hmem : 'm' ∈ List.replicate k '\n' := by rw [hnewlines]; simp
      cases List.eq_of_mem_replicate hmem
  · rw [htail, ← List.append_cons, afterColour_code hcode] at h
    cases h

theorem withoutColours_append_newlines (t : Text) (k : Nat) :
    withoutColours (t ++ List.replicate k '\n') = withoutColours t ++ List.replicate k '\n' := by
  fun_induction withoutColours t with
  | case1 => simpa [withoutColours] using withoutColours_append (t := List.replicate k '\n') (by simp) []
  | case2 c rest after hafter ih =>
    split at hafter
    · next hescape =>
      obtain ⟨code, hcode, hrest⟩ := afterColour_eq_some hafter
      have := withoutColours_code hcode (after ++ List.replicate k '\n')
      rw [← ih, ← this, hescape, hrest]
      simp
    · cases hafter
  | case3 c rest hafter ih =>
    rw [List.cons_append, withoutColours_of_none, ih, List.cons_append]
    split at hafter
    · next hescape => rw [if_pos hescape, afterColour_append_newlines hafter]
    · next hescape => rw [if_neg hescape]

/-! ### Lines in colours -/

/-- A line has an end only as its last character. -/
theorem exists_concat_of_mem_lines {t line : Text} (h : line ∈ lines t) :
    ∃ front last, line = front ++ [last] ∧ ∀ c ∈ front, endsLine c = false := by
  induction t generalizing line with
  | nil => cases h
  | cons c t ih =>
    rw [lines] at h
    split at h
    · rcases List.mem_cons.mp h with rfl | h
      · exact ⟨[], c, rfl, nofun⟩
      · exact ih h
    · next hc =>
      have hfalse : endsLine c = false := by simpa using hc
      split at h
      · rw [List.mem_singleton] at h
        exact ⟨[], c, h, nofun⟩
      · next line' others hlines =>
        rcases List.mem_cons.mp h with rfl | h
        · obtain ⟨front, last, rfl, hfront⟩ := ih (hlines ▸ List.mem_cons_self)
          exact ⟨c :: front, last, rfl, List.forall_mem_cons.mpr ⟨hfalse, hfront⟩⟩
        · exact ih (hlines ▸ List.mem_cons_of_mem _ h)

theorem flatten_lines (t : Text) : (lines t).flatten = t := by
  induction t with
  | nil => rfl
  | cons c t ih =>
    rw [lines]
    split
    · rw [List.flatten_cons, ih, List.singleton_append]
    · split
      · next hlines =>
        rw [hlines] at ih
        rw [← ih]
        rfl
      · next hlines =>
        rw [hlines] at ih
        rw [List.flatten_cons, List.cons_append, ← List.flatten_cons, ih]

/-- The text of a line is its part before a newline, and the newline. -/
theorem dropTrailing_append_newline {t line : Text} (h : line ∈ lines t) :
    Text.dropTrailing '\n' line ++ (if line.getLast? = some '\n' then ['\n'] else []) = line := by
  obtain ⟨front, last, rfl, hfront⟩ := exists_concat_of_mem_lines h
  have hnewline : '\n' ∉ front := fun hmem => absurd (hfront _ hmem) (by decide)
  have hstart : Text.dropLeading '\n' front.reverse = front.reverse := dropLeading_of_head_ne fun hhead =>
    hnewline (List.mem_reverse.mp (List.mem_of_head? hhead))
  rw [List.getLast?_concat, Text.dropTrailing, List.reverse_concat, Text.dropLeading]
  by_cases hlast : last = '\n'
  · rw [hlast, List.dropWhile_cons_of_pos (by rfl), ← Text.dropLeading, hstart, List.reverse_reverse, if_pos rfl]
  · rw [List.dropWhile_cons_of_neg (by simpa using hlast), if_neg (by simpa using hlast)]
    simp

theorem isColourCode_of_colour {kind : PieceKind} {n : Nat} (h : kind.colour = some n) :
    ∀ c ∈ Text.ofNat n, isColourCode c = true := by
  rw [← List.all_eq_true]
  cases kind <;> cases h <;> rfl

theorem withoutColours_colourLine {kind : PieceKind} {n : Nat} (hn : kind.colour = some n) {t line : Text}
    (h : line ∈ lines t) (hescape : '\x1b' ∉ line) (y : Text) :
    withoutColours (colourLine n line ++ y) = line ++ withoutColours y := by
  have hline := dropTrailing_append_newline h
  have hend : ∀ c ∈ "39;49;00".toList, isColourCode c = true := List.all_eq_true.mp rfl
  generalize hcore : Text.dropTrailing '\n' line = core at hline
  generalize htail : (if line.getLast? = some '\n' then ['\n'] else []) = tail at hline
  rw [← hline, List.mem_append, not_or] at hescape
  calc withoutColours (colourLine n line ++ y)
      = withoutColours ('\x1b' :: '[' :: Text.ofNat n ++
          'm' :: (core ++ ('\x1b' :: '[' :: "39;49;00".toList ++ 'm' :: (tail ++ y)))) := by
        rw [colourLine, hcore, htail]
        simp
    _ = core ++ (tail ++ withoutColours y) := by
        rw [withoutColours_code (isColourCode_of_colour hn), withoutColours_append hescape.1,
          withoutColours_code hend, withoutColours_append hescape.2]
    _ = line ++ withoutColours y := by rw [← List.append_assoc, hline]

/-- Taking the colours out of a piece as it is shown gives its text back. -/
theorem withoutColours_shown {p : Piece} (h : '\x1b' ∉ p.text) (y : Text) :
    withoutColours (p.shown ++ y) = p.text ++ withoutColours y := by
  rw [Piece.shown]
  cases hcolour : p.kind.colour with
  | none => exact withoutColours_append h y
  | some n =>
    have hlines : ∀ group : List Text, (∀ line ∈ group, line ∈ lines p.text ∧ '\x1b' ∉ line) →
        withoutColours (group.flatMap (colourLine n) ++ y) = group.flatten ++ withoutColours y := by
      intro group hgroup
      induction group with
      | nil => rfl
      | cons line group ih =>
        rw [List.forall_mem_cons] at hgroup
        rw [List.flatMap_cons, List.append_assoc, withoutColours_colourLine hcolour hgroup.1.1 hgroup.1.2, ih hgroup.2,
          List.flatten_cons, List.append_assoc]
    have hfree : ∀ line ∈ lines p.text, line ∈ lines p.text ∧ '\x1b' ∉ line := fun line hline =>
      ⟨hline, fun hmem => h (flatten_lines p.text ▸ List.mem_flatten_of_mem hline hmem)⟩
    rw [hlines _ hfree, flatten_lines]

theorem exists_lines_concat (front : Text) :
    ∃ before line, lines (front ++ ['\n']) = before ++ [line ++ ['\n']] := by
  induction front with
  | nil => exact ⟨[], [], rfl⟩
  | cons c front ih =>
    obtain ⟨before, line, hlines⟩ := ih
    rw [List.cons_append, lines]
    split
    · exact ⟨[c] :: before, line, by rw [hlines, List.cons_append]⟩
    · rw [hlines]
      cases before with
      | nil => exact ⟨[], c :: line, rfl⟩
      | cons first before => exact ⟨(c :: first) :: before, line, rfl⟩

/-- A newline at the end of a piece stays at its end. -/
theorem getLast?_shown {p : Piece} (h : p.text.getLast? = some '\n') : p.shown.getLast? = some '\n' := by
  rw [Piece.shown]
  cases p.kind.colour with
  | none => exact h
  | some n =>
    obtain ⟨front, hfront⟩ := List.getLast?_eq_some_iff.mp h
    obtain ⟨before, line, hlines⟩ := exists_lines_concat front
    have hcolour : (colourLine n (line ++ ['\n'])).getLast? = some '\n' := by
      rw [colourLine, List.getLast?_concat, if_pos rfl]
      exact List.getLast?_concat
    simp only [hfront, hlines]
    rw [List.flatMap_append, List.flatMap_singleton, List.getLast?_append, hcolour]
    rfl

theorem withoutColours_flatMap_shown {ps : List Piece} (h : '\x1b' ∉ ps.flatMap Piece.text) :
    withoutColours (ps.flatMap Piece.shown) = ps.flatMap Piece.text := by
  induction ps with
  | nil => simp [withoutColours]
  | cons p ps ih =>
    rw [List.flatMap_cons, List.mem_append, not_or] at h
    rw [List.flatMap_cons, withoutColours_shown h.1, ih h.2, List.flatMap_cons]

/-! ### Patterns -/

theorem unifyLines_of_not_mem {t : Text} (h : '\r' ∉ t) : unifyLines t = t := by
  fun_induction unifyLines t with
  | case1 rest ih => simp at h
  | case2 rest hne ih => simp at h
  | case3 c rest h₁ h₂ ih =>
    rw [List.mem_cons, not_or] at h
    rw [ih h.2]
  | case4 => rfl

theorem dropOrderMark_of_head? {t : Text} (h : t.head? ≠ some '\ufeff') : dropOrderMark t = t := by
  unfold dropOrderMark
  split
  · simp at h
  · rfl

/-- A pattern on one line is cut as it is, with a newline at its end. -/
theorem prepare_of_line {t : Text} (hmark : t.head? ≠ some '\ufeff') (hreturn : '\r' ∉ t) (hline : '\n' ∉ t) :
    prepare t = t ++ ['\n'] := by
  have hhead : t.head? ≠ some '\n' := fun h => hline (List.mem_of_head? h)
  have hlast : t.getLast? ≠ some '\n' := fun h => hline (List.mem_of_getLast? h)
  rw [prepare, dropOrderMark_of_head? hmark, unifyLines_of_not_mem hreturn, Text.strip_of_ends_ne hhead hlast]

theorem getLast?_flatMap_shown (t : Text) : ((pieces t).flatMap Piece.shown).getLast? = some '\n' := by
  have htext : ((pieces t).flatMap Piece.text).getLast? = some '\n' := by
    rw [pieces, flatMap_text_cut, prepare, List.getLast?_concat]
  have hpieces : ∀ p ∈ pieces t, p.text ≠ [] := forall_mem_cut (fun modes c rest => (eq_of_step modes c rest).2.2) _ _
  rcases List.eq_nil_or_concat' (pieces t) with hnil | ⟨front, p, hfront⟩
  · rw [hnil] at htext
    cases htext
  · rw [hfront] at htext hpieces ⊢
    have hp : p.text ≠ [] := hpieces p (by simp)
    rw [List.flatMap_append, List.flatMap_singleton, List.getLast?_append_of_ne_nil _ hp] at htext
    rw [List.flatMap_append, List.flatMap_singleton, List.getLast?_append, getLast?_shown htext]
    rfl

theorem withoutColours_highlight {t : Text} (hmark : t.head? ≠ some '\ufeff') (hescape : '\x1b' ∉ t)
    (hreturn : '\r' ∉ t) (hline : '\n' ∉ t) : withoutColours (highlight t) = t := by
  have htext : (pieces t).flatMap Piece.text = t ++ ['\n'] := by
    rw [pieces, flatMap_text_cut, prepare_of_line hmark hreturn hline]
  have hshown : withoutColours ((pieces t).flatMap Piece.shown) = t ++ ['\n'] := by
    rw [withoutColours_flatMap_shown (by simp [htext, hescape]), htext]
  obtain ⟨front, hfront⟩ := List.getLast?_eq_some_iff.mp (getLast?_flatMap_shown t)
  -- of the newlines at the end there is at least one, and no second one
  have hsplit := Text.dropTrailing_append_replicate '\n' ((pieces t).flatMap Piece.shown)
  rw [← highlight] at hsplit
  rw [← hsplit, withoutColours_append_newlines, hfront, List.rtakeWhile_concat_pos _ _ _ (by rfl), List.length_append,
    List.length_singleton, List.replicate_succ', ← List.append_assoc] at hshown
  have hrest := List.append_inj_left' hshown rfl
  generalize (front.rtakeWhile (· == '\n')).length = k at hrest
  cases k with
  | zero => simpa using hrest
  | succ k =>
    refine absurd ?_ hline
    rw [← hrest, List.replicate_succ]
    simp

end Routing.Highlight
