import Mathlib.Data.List.DropRight
import Routing.Text

/-!
# Cutting what was joined

A text that is joined of pieces without a character is cut at that character into the pieces again (`splitOn_join`), and
into two parts where one of them is without it (`cut_append`). What is on the two sides of the character is cut apart
from each other (`splitOn_append_cons`). A run of a character is dropped at the ends of a text only, so nothing of a
text that starts with another one (`dropLeading_of_head_ne`), or that has other ones at both of its ends
(`Text.strip_of_ends_ne`).
-/

namespace Routing

namespace Text

variable {sep : Char}

/-- A text is cut at its first separator. -/
theorem cut_append {a : Text} (h : sep ∉ a) (b : Text) : cut sep (a ++ sep :: b) = (a, some b) := by
  induction a with
  | nil => simp [cut]
  | cons c a ih =>
    rw [List.mem_cons, not_or] at h
    rw [List.cons_append, cut, if_neg (Ne.symm h.1), ih h.2]

theorem cut_of_not_mem {t : Text} (h : sep ∉ t) : cut sep t = (t, none) := by
  induction t with
  | nil => rfl
  | cons c t ih =>
    rw [List.mem_cons, not_or] at h
    rw [cut, if_neg (Ne.symm h.1), ih h.2]

/-- What is before and what is behind the first separator. -/
theorem cut_eq (t : Text) : cut sep t = (t.takeWhile (· ≠ sep), (t.dropWhile (· ≠ sep)).tail?) := by
  induction t with
  | nil => rfl
  | cons c t ih =>
    rw [cut]
    split
    · next hc => simp [hc]
    · next hc => simp [hc, ih]

theorem splitOn_of_not_mem {t : Text} (h : sep ∉ t) : splitOn sep t = [t] := by
  induction t with
  | nil => rfl
  | cons c t ih =>
    rw [List.mem_cons, not_or] at h
    rw [splitOn, if_neg (Ne.symm h.1), ih h.2]

/-- A text is cut at a separator into what its two sides are cut into. -/
theorem splitOn_append_cons (s t : Text) : splitOn sep (s ++ sep :: t) = splitOn sep s ++ splitOn sep t := by
  induction s with
  | nil => rw [List.nil_append, splitOn, splitOn, if_pos rfl, List.singleton_append]
  | cons c s ih =>
    rw [List.cons_append, splitOn, splitOn, ih]
    split
    · rfl
    · cases hs : splitOn sep s with
      | nil => exact absurd hs (splitOn_ne_nil sep s)
      | cons piece pieces => rfl

theorem splitOn_append {t : Text} (h : sep ∉ t) (rest : Text) :
    splitOn sep (t ++ sep :: rest) = t :: splitOn sep rest := by
  rw [splitOn_append_cons, splitOn_of_not_mem h, List.singleton_append]

theorem not_mem_of_mem_splitOn {t piece : Text} (h : piece ∈ splitOn sep t) : sep ∉ piece := by
  induction t generalizing piece with
  | nil =>
    obtain rfl : piece = [] := by simpa [splitOn] using h
    exact List.not_mem_nil
  | cons c t ih =>
    rw [splitOn] at h
    split at h
    · rcases List.mem_cons.mp h with rfl | h
      · exact List.not_mem_nil
      · exact ih h
    · next hc =>
      split at h
      · next hnil => exact absurd hnil (splitOn_ne_nil sep t)
      · next first pieces hpieces =>
        rw [hpieces] at ih
        rcases List.mem_cons.mp h with rfl | h
        · rw [List.mem_cons, not_or]
          exact ⟨Ne.symm hc, ih List.mem_cons_self⟩
        · exact ih (List.mem_cons_of_mem _ h)

theorem join_singleton (piece : Text) : join [sep] [piece] = piece := List.intercalate_singleton

theorem join_cons (piece : Text) {rest : List Text} (h : rest ≠ []) :
    join [sep] (piece :: rest) = piece ++ sep :: join [sep] rest := by
  obtain ⟨first, rest, rfl⟩ := List.exists_cons_of_ne_nil h
  rw [join, List.intercalate_cons_cons, List.append_assoc, List.singleton_append, join]

/-- Two lists of pieces that are joined have one more separator between them. -/
theorem join_append {m n : List Text} (hm : m ≠ []) (hn : n ≠ []) :
    join [sep] (m ++ n) = join [sep] m ++ sep :: join [sep] n := by
  induction m with
  | nil => exact absurd rfl hm
  | cons piece m ih =>
    by_cases hnil : m = []
    · rw [hnil, List.singleton_append, join_cons piece hn, join_singleton]
    · rw [List.cons_append, join_cons piece (List.append_ne_nil_of_left_ne_nil hnil n), ih hnil, join_cons piece hnil,
        List.append_assoc, List.cons_append]

/-- Pieces that were joined are found again by cutting. -/
theorem splitOn_join {pieces : List Text} (hne : pieces ≠ []) (h : ∀ p ∈ pieces, sep ∉ p) :
    splitOn sep (join [sep] pieces) = pieces := by
  induction pieces with
  | nil => exact absurd rfl hne
  | cons p rest ih =>
    rw [List.forall_mem_cons] at h
    cases rest with
    | nil => rw [join, List.intercalate_singleton, splitOn_of_not_mem h.1]
    | cons q rest =>
      rw [join_cons p (List.cons_ne_nil _ _), splitOn_append h.1]
      exact congrArg _ (ih (List.cons_ne_nil _ _) h.2)

end Text

theorem dropLeading_of_head_ne {c : Char} {t : Text} (h : t.head? ≠ some c) : Text.dropLeading c t = t := by
  cases t with
  | nil => rfl
  | cons d t =>
    have hd : d ≠ c := by simpa using h
    rw [Text.dropLeading, List.dropWhile_cons_of_neg (by simpa using hd)]

namespace Text

/-- What a character in front does not change is not changed by a run of it. -/
theorem apply_dropLeading {α : Type*} {f : Text → α} {c : Char} (h : ∀ t, f (c :: t) = f t) (t : Text) :
    f (Text.dropLeading c t) = f t := by
  induction t with
  | nil => rfl
  | cons d t ih =>
    by_cases hd : d = c
    · rw [hd, h, Text.dropLeading, List.dropWhile_cons_of_pos (by simp), ← Text.dropLeading, ih]
    · rw [dropLeading_of_head_ne (by simpa using hd)]

/-- What is dropped at the end of a text is a run of the character. -/
theorem dropTrailing_append_replicate (c : Char) (t : Text) :
    dropTrailing c t ++ List.replicate (t.rtakeWhile (· == c)).length c = t := by
  have hrun : t.rtakeWhile (· == c) = List.replicate (t.rtakeWhile (· == c)).length c :=
    List.eq_replicate_iff.mpr ⟨rfl, fun d hd => by simpa using List.mem_rtakeWhile_imp hd⟩
  rw [← hrun]
  exact List.rdropWhile_append_rtakeWhile

theorem strip_of_ends_ne {c : Char} {t : Text} (hhead : t.head? ≠ some c) (hlast : t.getLast? ≠ some c) :
    strip c t = t := by
  have hreverse : t.reverse.head? ≠ some c := by rwa [List.head?_reverse]
  rw [strip, dropTrailing, dropLeading_of_head_ne hhead, dropLeading_of_head_ne hreverse, List.reverse_reverse]

end Text

end Routing
