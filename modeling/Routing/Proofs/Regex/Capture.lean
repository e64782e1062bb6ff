import Routing.Proofs.Regex.Bare
import Routing.Route

/-!
# What captures hold

A capture that encloses a way holds the text that the way took off (`captured_enclose_self`) and leaves the other
captures alone.

Only a possessive loop moves the place back past an edge. So a match of an expression without one never has a
capture that ends before it starts (`uncrossed_of_mem_ways`), and looking for it is never refused (`sound_matchStart`,
`sound_matchWhole`).
-/

namespace Routing.Regex

/-! ### Edges of one more capture -/

namespace Cursor

variable {s : Cursor} {first last : Place} {index other : Nat}

theorem edge_enclose_self (closing : Bool) :
    (s.enclose index first last).edge index closing = some (if closing then last.ahead else first.ahead) := by
  cases closing <;> simp [enclose, mark, edge]

theorem edge_enclose_of_ne (h : index ≠ other) (closing : Bool) :
    (s.enclose index first last).edge other closing = s.edge other closing := by
  have h' : (index == other) = false := by simpa using h
  simp [enclose, mark, edge, h']

/-- A capture holds the text between its two edges. -/
theorem captured_of_edges {first last w : Text} (hfirst : s.edge index false = some first)
    (hlast : s.edge index true = some last) (h : first = w ++ last) : s.captured index = some w := by
  have hle : last.length ≤ first.length := by rw [h, List.length_append]; omega
  have htake : first.take (first.length - last.length) = w := by
    rw [h, List.length_append, Nat.add_sub_cancel, List.take_left]
  simp only [captured, hfirst, hlast, if_pos hle, htake]

theorem captured_enclose_self {w : Text} (h : first.ahead = w ++ last.ahead) :
    (s.enclose index first last).captured index = some w :=
  captured_of_edges (edge_enclose_self false) (edge_enclose_self true) h

theorem captured_enclose_of_ne (h : index ≠ other) :
    (s.enclose index first last).captured other = s.captured other := by
  simp only [captured, edge_enclose_of_ne h]

/-- Whether every capture ends where it starts or later. -/
def Uncrossed (s : Cursor) : Prop := ∀ index, s.isCrossed index = false

theorem uncrossed_ofText (t : Text) : (ofText t).Uncrossed := fun _ => rfl

theorem Uncrossed.of_captures {t : Cursor} (hs : s.Uncrossed) (h : t.captures = s.captures) : t.Uncrossed := by
  intro index
  have := hs index
  simpa only [isCrossed, edge, h] using this

theorem Uncrossed.enclose (hs : s.Uncrossed) (hle : last.ahead.length ≤ first.ahead.length) :
    (s.enclose index first last).Uncrossed := by
  intro other
  by_cases h : index = other
  · subst h
    simp [isCrossed, edge_enclose_self, hle]
  · simpa only [isCrossed, edge_enclose_of_ne h] using hs other

end Cursor

/-! ### Regular expressions -/

/-- A regular expression without captures leaves the captures alone. -/
theorem captures_eq_of_mem_ways {r : Regex} (hr : r.IsRegular) (h0 : r.captureCount = 0) {s t : Cursor}
    (h : t ∈ r.ways s) : t.captures = s.captures :=
  (holds_of_mem_ways (isBare_of_isRegular hr h0) h).captures

theorem Cursor.captured_of_captures {s t : Cursor} (h : t.captures = s.captures) (index : Nat) :
    t.captured index = s.captured index := by
  simp only [Cursor.captured, Cursor.edge, h]

/-- A capture holds the word that was taken off, and the other captures stay. -/
theorem captured_of_mem_ways {index : Nat} {body : Regex} (hr : body.IsRegular) (h0 : body.captureCount = 0)
    {s t : Cursor} (h : t ∈ (capture index body).ways s) :
    ∃ w ∈ body.language, s.ahead = w ++ t.ahead ∧ t.captured index = some w ∧
      ∀ other, index ≠ other → t.captured other = s.captured other := by
  obtain ⟨u, hu, rfl⟩ := mem_ways_capture.mp h
  obtain ⟨w, hw, hahead⟩ := exists_mem_language hr hu
  refine ⟨w, hw, hahead, Cursor.captured_enclose_self hahead, ?_⟩
  intro other hne
  rw [Cursor.captured_enclose_of_ne hne]
  exact Cursor.captured_of_captures (captures_eq_of_mem_ways hr h0 hu) other

/-! ### No crossing without possessive loops -/

/-- Whether some part of an expression is a possessive loop. -/
def hasPossessive : Regex → Bool
  | empty => false
  | oneOf _ => false
  | seq first second => first.hasPossessive || second.hasPossessive
  | alt first second => first.hasPossessive || second.hasPossessive
  | capture _ body => body.hasPossessive
  | loop body _ _ _ => body.hasPossessive
  | possessive _ _ _ _ => true
  | atomic body => body.hasPossessive
  | look _ body => body.hasPossessive
  | backref _ _ => false
  | anchor _ => false

theorem hasPossessive_of_isRegular {r : Regex} (h : r.IsRegular) : r.hasPossessive = false := by
  induction r with
  | empty => rfl
  | oneOf => rfl
  | seq first second ih₁ ih₂ => simp [hasPossessive, ih₁ h.1, ih₂ h.2]
  | alt first second ih₁ ih₂ => simp [hasPossessive, ih₁ h.1, ih₂ h.2]
  | capture index body ih => exact ih h
  | loop body least most reluctant ih => exact ih h
  | possessive => exact h.elim
  | atomic => exact h.elim
  | look => exact h.elim
  | backref => rfl
  | anchor => rfl

/-- A way that goes forward, and from uncrossed captures to uncrossed ones. -/
def Forward (s t : Cursor) : Prop := t.ahead.length ≤ s.ahead.length ∧ (s.Uncrossed → t.Uncrossed)

theorem Forward.refl (s : Cursor) : Forward s s := ⟨Nat.le_refl _, id⟩

theorem Forward.trans (s t u : Cursor) (h₁ : Forward s t) (h₂ : Forward t u) : Forward s u :=
  ⟨Nat.le_trans h₂.1 h₁.1, fun hs => h₂.2 (h₁.2 hs)⟩

theorem Forward.moveTo {s : Cursor} {p : Place} (h : p.ahead.length ≤ s.ahead.length) : Forward s (s.moveTo p) :=
  ⟨h, fun hs => hs.of_captures rfl⟩

/-- Without possessive loops every way goes forward. -/
theorem forward_of_mem_ways {r : Regex} (hr : r.hasPossessive = false) {s t : Cursor} (h : t ∈ r.ways s) :
    Forward s t := by
  induction r generalizing s t with
  | empty =>
    have hts : t = s := by simpa [ways] using h
    exact hts ▸ Forward.refl s
  | oneOf set =>
    obtain ⟨c, rest, hs, -, rfl⟩ := mem_ways_oneOf.mp h
    exact Forward.moveTo (by simp [hs])
  | seq first second ih₁ ih₂ =>
    obtain ⟨h₁, h₂⟩ := Bool.or_eq_false_iff.mp hr
    obtain ⟨u, hu, ht⟩ := mem_ways_seq.mp h
    exact Forward.trans s u t (ih₁ h₁ hu) (ih₂ h₂ ht)
  | alt first second ih₁ ih₂ =>
    obtain ⟨h₁, h₂⟩ := Bool.or_eq_false_iff.mp hr
    rw [ways, List.mem_append] at h
    rcases h with h | h
    · exact ih₁ h₁ h
    · exact ih₂ h₂ h
  | capture index body ih =>
    -- what is captured ends where the way ends, which is not before it starts
    obtain ⟨u, hu, rfl⟩ := mem_ways_capture.mp h
    obtain ⟨hle, hun⟩ := ih hr hu
    exact ⟨hle, fun hs => (hun hs).enclose hle⟩
  | loop body least most reluctant ih =>
    obtain ⟨u, hu, ht⟩ := mem_ways_loop.mp h
    have hstep : ∀ s t, t ∈ body.ways s → Forward s t := fun _ _ => ih hr
    exact Forward.trans s u t (waysTimes_relates Forward.refl Forward.trans hstep least hu)
      (waysUpTo_relates Forward.refl Forward.trans hstep reluctant _ ht)
  | possessive => exact absurd hr (by simp [hasPossessive])
  | atomic body ih =>
    rw [ways] at h
    exact ih hr (List.mem_of_mem_take h)
  | look wanted body ih =>
    rw [ways] at h
    cases hb : (body.ways s).head? with
    | none =>
      simp only [hb] at h
      cases wanted with
      | true => simp at h
      | false =>
        have hts : t = s := by simpa using h
        exact hts ▸ Forward.refl s
    | some u =>
      simp only [hb] at h
      cases wanted with
      | true =>
        have hts : t = { s with captures := u.captures } := by simpa using h
        -- only the captures of the look-ahead stay, its place is given up
        obtain ⟨-, hun⟩ := ih hr (List.mem_of_mem_head? hb)
        rw [hts]
        exact ⟨Nat.le_refl _, fun hs => (hun hs).of_captures rfl⟩
      | false => simp at h
  | backref index anyCase =>
    rw [ways] at h
    split at h
    · split at h
      · rw [List.mem_singleton.mp h]
        exact Forward.moveTo (by simp [Place.skip])
      · simp at h
    · simp at h
  | anchor place =>
    rw [ways] at h
    split at h
    · rw [List.mem_singleton.mp h]
      exact Forward.refl s
    · simp at h

theorem uncrossed_of_mem_ways {r : Regex} (hr : r.hasPossessive = false) {s t : Cursor} (hs : s.Uncrossed)
    (h : t ∈ r.ways s) : t.Uncrossed := (forward_of_mem_ways hr h).2 hs

/-! ### Searches are sound -/

/-- What a search finds is a way that was taken. -/
theorem exists_way_of_attempt {r : Regex} {s t : Cursor} {follow : Follow} (h : r.attempt s follow = some t) :
    ∃ u ∈ r.ways s, follow u = some t := by
  rw [attempt_eq_findSome?] at h
  exact List.exists_of_findSome?_eq_some h

theorem mem_ways_of_matchStart {r : Regex} {t : Text} {s : Cursor} (h : r.matchStart t = some s) :
    s ∈ r.ways (.ofText t) := by
  obtain ⟨u, hu, he⟩ := exists_way_of_attempt h
  rw [← Option.some.inj he]
  exact hu

theorem mem_ways_of_matchWhole {r : Regex} {t : Text} {s : Cursor} (h : r.matchWhole t = some s) :
    s ∈ r.ways (.ofText t) ∧ s.ahead = [] := by
  obtain ⟨u, hu, he⟩ := exists_way_of_attempt h
  split at he
  · next hend =>
    rw [← Option.some.inj he]
    exact ⟨hu, by simpa using hend⟩
  · simp at he

theorem isSome_matchStart {r : Regex} {t : Text} : (r.matchStart t).isSome = true ↔ ∃ s, s ∈ r.ways (.ofText t) := by
  rw [matchStart, attempt_eq_findSome?, List.findSome?_isSome_iff]
  simp

theorem crosses_eq_false {r : Regex} {s : Cursor} (h : s.Uncrossed) : r.crosses s = false := by
  simp only [crosses, List.any_eq_false]
  intro i _
  simp [h (i + 1)]

theorem sound_eq_ok {r : Regex} {found : Option Cursor} (h : ∀ s, found = some s → s.Uncrossed) :
    sound r found = .ok found := by
  cases found with
  | none => rfl
  | some s =>
    have hs : r.crosses s = false := crosses_eq_false (h s rfl)
    simp [sound, hs]

theorem sound_matchStart {r : Regex} (hr : r.hasPossessive = false) (t : Text) :
    sound r (r.matchStart t) = .ok (r.matchStart t) :=
  sound_eq_ok fun _ hs => uncrossed_of_mem_ways hr (Cursor.uncrossed_ofText t) (mem_ways_of_matchStart hs)

theorem sound_matchWhole {r : Regex} (hr : r.hasPossessive = false) (t : Text) :
    sound r (r.matchWhole t) = .ok (r.matchWhole t) :=
  sound_eq_ok fun _ hs => uncrossed_of_mem_ways hr (Cursor.uncrossed_ofText t) (mem_ways_of_matchWhole hs).1

/-- Each match in a text is a way from some place of it, where nothing is captured yet. -/
theorem exists_way_of_mem_searchFrom {r : Regex} {fuel : Nat} {emptyToo : Bool} {s t : Cursor}
    (h : t ∈ r.searchFrom fuel emptyToo s) : ∃ u : Cursor, t ∈ r.ways { u with captures := [] } := by
  induction fuel generalizing emptyToo s with
  | zero => cases h
  | succ fuel ih =>
    rw [searchFrom] at h
    split at h
    · next u hu =>
      rcases List.mem_cons.mp h with rfl | h
      · obtain ⟨v, hv, he⟩ := exists_way_of_attempt hu
        split at he
        · exact ⟨s, Option.some.inj he ▸ hv⟩
        · cases he
      · exact ih h
    · split at h
      · exact ih h
      · cases h

theorem uncrossed_of_mem_searchFrom {r : Regex} (hr : r.hasPossessive = false) {fuel : Nat} {emptyToo : Bool}
    {s : Cursor} : ∀ t ∈ r.searchFrom fuel emptyToo s, t.Uncrossed := by
  intro t ht
  obtain ⟨u, hu⟩ := exists_way_of_mem_searchFrom ht
  exact uncrossed_of_mem_ways hr (fun _ => rfl) hu

/-- A text with a match at its start has a match. -/
theorem search_ne_nil {r : Regex} {t : Text} (h : (r.matchStart t).isSome = true) : r.search t ≠ [] := by
  obtain ⟨s, hs⟩ := Option.isSome_iff_exists.mp h
  have hhere : r.matchHere true (.ofText t) = some s := by
    rw [← hs, matchHere, matchStart]
    simp only [Bool.true_or, if_true]
    rfl
  rw [search, searchFrom, hhere]
  exact List.cons_ne_nil _ _

/-- Without possessive loops none of the matches in a text is refused. -/
theorem crosses_search {r : Regex} (hr : r.hasPossessive = false) (t : Text) : (r.search t).any r.crosses = false := by
  rw [List.any_eq_false]
  intro s hs
  simp [crosses_eq_false (uncrossed_of_mem_searchFrom hr s hs)]

end Routing.Regex
