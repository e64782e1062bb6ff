import Routing.Proofs.Pattern.Alignment
import Routing.Proofs.Regex.Capture

/-!
# What fills the captures

A way of items that are aligned with tokens sets the captures of these tokens only. Each one of them that it sets
encloses a way of the variable's own expression, in the same text (`Aligned.fills`). Rounds of a group set captures
again, or leave them as a round before them did.
-/

namespace Routing.Pattern

open Regex

/-- The variables of some tokens, each one with its own capture. `inside` is the pattern of the repeated group around
them. -/
def boundOf (inside : Option Text) : List Token → List (Variable × Text)
  | [] => []
  | .literal _ :: rest => boundOf inside rest
  | .variable name c :: rest => (⟨name, inside⟩, c) :: boundOf inside rest
  | .group suffix _ raw children :: rest => boundOf (within inside suffix raw) children ++ boundOf inside rest

theorem map_fst_boundOf (inside : Option Text) (ts : List Token) :
    (boundOf inside ts).map Prod.fst = varsOf inside ts := by
  induction ts using tokens_induction generalizing inside with
  | nil => simp [boundOf, varsOf]
  | literal text rest ih => simpa [boundOf, varsOf] using ih inside
  | var name c rest ih => simpa [boundOf, varsOf] using ih inside
  | group suffix binds raw children rest ihc ih => simp [boundOf, varsOf, ihc, ih]

theorem length_boundOf (inside : Option Text) (ts : List Token) :
    (boundOf inside ts).length = (namesOf ts).length := by
  rw [← map_name_varsOf inside, ← map_fst_boundOf, List.length_map, List.length_map]

/-! ### Edges -/

/-- Whether a capture has the same edges at two cursors. -/
def KeepsEdges (index : Nat) (s t : Cursor) : Prop := ∀ closing, t.edge index closing = s.edge index closing

/-- Whether the edges of a capture enclose a way of an expression in a text. -/
def Encloses (e : Regex) (text : Text) (index : Nat) (t : Cursor) : Prop :=
  ∃ u v : Cursor, v ∈ e.ways u ∧ u.text = text ∧ v.text = text ∧ t.edge index false = some u.ahead ∧
    t.edge index true = some v.ahead

/-- Whether the captures that are set between two cursors are among those of some variables. The capture of a variable
that is not repeated encloses a way of its own expression. -/
structure Fills (owners : List ((Variable × Text) × Nat)) (s t : Cursor) : Prop where
  text : t.text = s.text
  captures : ∀ index, KeepsEdges index s t ∨ ∃ v c, ((v, c), index) ∈ owners ∧
    (v.repeated = none → ∃ e, Regex.read c = .ok e ∧ Encloses e s.text index t)

section Fills

variable {owners others : List ((Variable × Text) × Nat)} {s t u : Cursor}

theorem Encloses.of_keeps {e : Regex} {text : Text} {index : Nat} (h : Encloses e text index s)
    (hkeeps : KeepsEdges index s t) : Encloses e text index t := by
  obtain ⟨u, v, hv, hu, hw, hfirst, hlast⟩ := h
  exact ⟨u, v, hv, hu, hw, (hkeeps false).trans hfirst, (hkeeps true).trans hlast⟩

theorem Fills.refl (owners : List ((Variable × Text) × Nat)) (s : Cursor) : Fills owners s s :=
  ⟨rfl, fun _ => Or.inl fun _ => rfl⟩

theorem Fills.trans (h₁ : Fills owners s t) (h₂ : Fills owners t u) : Fills owners s u := by
  refine ⟨h₂.text.trans h₁.text, fun index => ?_⟩
  rcases h₂.captures index with hkeeps | ⟨v, c, hmem, hset⟩
  · rcases h₁.captures index with hkeeps' | ⟨v, c, hmem, hset⟩
    · exact Or.inl fun closing => (hkeeps closing).trans (hkeeps' closing)
    · refine Or.inr ⟨v, c, hmem, fun hnone => ?_⟩
      obtain ⟨e, he, hencloses⟩ := hset hnone
      exact ⟨e, he, hencloses.of_keeps hkeeps⟩
  · rw [h₁.text] at hset
    exact Or.inr ⟨v, c, hmem, hset⟩

theorem Fills.mono (h : Fills owners s t) (hsubset : owners ⊆ others) : Fills others s t := by
  refine ⟨h.text, fun index => (h.captures index).imp_right ?_⟩
  rintro ⟨v, c, hmem, hset⟩
  exact ⟨v, c, hsubset hmem, hset⟩

/-- A way of one part and then one of another part. -/
theorem Fills.append (h₁ : Fills owners s t) (h₂ : Fills others t u) : Fills (owners ++ others) s u :=
  (h₁.mono (List.subset_append_left _ _)).trans (h₂.mono (List.subset_append_right _ _))

theorem fills_of_isBare {r : Regex} (hr : r.IsBare) (h : t ∈ r.ways s) : Fills [] s t := by
  obtain ⟨htext, hcaptures⟩ := holds_of_mem_ways hr h
  exact ⟨htext, fun index => Or.inl fun closing => by rw [Cursor.edge, hcaptures, ← Cursor.edge]⟩

theorem fills_of_capture {index : Nat} {body : Regex} {v : Variable} {c : Text} (hbody : body.IsBare)
    (hread : v.repeated = none → Regex.read c = .ok body) (h : t ∈ (capture index body).ways s) :
    Fills [((v, c), index)] s t := by
  obtain ⟨w, hw, rfl⟩ := mem_ways_capture.mp h
  obtain ⟨htext, hcaptures⟩ := holds_of_mem_ways hbody hw
  refine ⟨htext, fun other => ?_⟩
  by_cases hindex : index = other
  · subst hindex
    refine Or.inr ⟨v, c, List.mem_singleton_self _, fun hnone => ⟨body, hread hnone, s, w, hw, rfl, htext, ?_, ?_⟩⟩
    · exact Cursor.edge_enclose_self false
    · exact Cursor.edge_enclose_self true
  · refine Or.inl fun closing => ?_
    rw [Cursor.edge_enclose_of_ne hindex, Cursor.edge, hcaptures, ← Cursor.edge]

theorem fills_of_loop {body : Regex} {least : Nat} {most : Option Nat} {reluctant : Bool}
    (hbody : ∀ s t, t ∈ body.ways s → Fills owners s t) (h : t ∈ (loop body least most reluctant).ways s) :
    Fills owners s t := by
  obtain ⟨u, hu, ht⟩ := mem_ways_loop.mp h
  have htrans : ∀ s t u, Fills owners s t → Fills owners t u → Fills owners s u := fun _ _ _ => Fills.trans
  exact (waysTimes_relates (Fills.refl owners) htrans hbody least hu).trans
    (waysUpTo_relates (Fills.refl owners) htrans hbody reluctant _ ht)

end Fills

/-! ### Aligned items -/

theorem isBare_literal (text : Text) :
    (seqAll ((text.map fun c => (⟨.oneOf (.single c false), .single⟩ : Item)).map Item.regex)).IsBare := by
  apply isBare_seqAll
  simp only [List.map_map, List.mem_map]
  rintro r ⟨c, -, rfl⟩
  trivial

namespace Aligned

variable {index : Nat} {ts : List Token} {items : List Item}

/-- There is one capture for each variable. -/
theorem captureCount (h : Aligned index ts items) :
    (seqAll (items.map Item.regex)).captureCount = (namesOf ts).length := by
  induction h with
  | nil => rfl
  | literal _ ih =>
    rw [List.map_append, captureCount_seqAll_append, captureCount_of_isBare (isBare_literal _), ih, Nat.zero_add]
    rfl
  | @var index name c e rest items _ hbare _ ih =>
    show e.captureCount + 1 + (seqAll (items.map Item.regex)).captureCount = _
    rw [captureCount_of_isBare hbare, ih, namesOf, Token.names, List.length_append]
    rfl
  | @run index suffix binds raw children body rest items _ hone hbare _ ih =>
    show body.captureCount + 1 + (seqAll (items.map Item.regex)).captureCount = _
    rw [captureCount_of_isBare hbare, ih, namesOf, Token.names, List.length_append, hone]
  | @group index suffix binds raw children inner rest items _ _ _ ihinner ih =>
    show (seqAll (inner.map Item.regex)).nest.captureCount + (seqAll (items.map Item.regex)).captureCount = _
    rw [captureCount_nest, ihinner, ih, namesOf, Token.names, List.length_append]

theorem holdsBare (h : Aligned index ts items) : (seqAll (items.map Item.regex)).HoldsBare := by
  have hseq : ∀ {items : List Item}, (∀ item ∈ items, item.regex.HoldsBare) →
      (seqAll (items.map Item.regex)).HoldsBare := by
    intro items hitems
    apply seqAll_of (P := HoldsBare) trivial fun h₁ h₂ => ⟨h₁, h₂⟩
    simpa using hitems
  apply hseq
  induction h with
  | nil => nofun
  | literal _ ih =>
    rw [List.forall_mem_append]
    refine ⟨?_, ih⟩
    simp only [List.mem_map]
    rintro item ⟨c, -, rfl⟩
    trivial
  | var _ hbare _ ih => exact List.forall_mem_cons.mpr ⟨hbare.holdsBare, ih⟩
  | run _ _ hbare _ ih => exact List.forall_mem_cons.mpr ⟨hbare.holdsBare, ih⟩
  | group _ _ _ ihinner ih => exact List.forall_mem_cons.mpr ⟨(hseq ihinner).nest, ih⟩

/-- A way sets the captures of the variables, each with a way of its own. -/
theorem fills (h : Aligned index ts items) {s t : Cursor} (ht : t ∈ (seqAll (items.map Item.regex)).ways s) :
    Fills ((boundOf none ts).zipIdx (index + 1)) s t := by
  induction h generalizing s t with
  | nil =>
    rw [boundOf]
    exact fills_of_isBare (r := .empty) trivial ht
  | literal _ ih =>
    rw [List.map_append] at ht
    obtain ⟨u, hu, ht⟩ := mem_ways_seqAll_append.mp ht
    rw [boundOf]
    exact (fills_of_isBare (isBare_literal _) hu).append (ih ht)
  | var hread hbare _ ih =>
    obtain ⟨u, hu, ht⟩ := mem_ways_seq.mp ht
    rw [boundOf, List.zipIdx_cons]
    exact (fills_of_capture hbare (fun _ => hread) hu).append (ih ht)
  | @run index suffix binds raw children body rest items hrepeats hone hbare _ ih =>
    obtain ⟨u, hu, ht⟩ := mem_ways_seq.mp ht
    have hlength : (boundOf (some raw) children).length = 1 := by rw [length_boundOf, hone]
    obtain ⟨⟨v, c⟩, hbound⟩ := List.length_eq_one_iff.mp hlength
    have hrepeated : v.repeated = some raw := by
      have hmem : v ∈ varsOf (some raw) children := by
        rw [← map_fst_boundOf, hbound]
        exact List.mem_singleton_self v
      rw [varsOf_some] at hmem
      obtain ⟨name, -, rfl⟩ := List.mem_map.mp hmem
      rfl
    rw [boundOf, within, if_pos hrepeats, Option.none_or, hbound, List.singleton_append, List.zipIdx_cons]
    have hrun : Fills [((v, c), index + 1)] s u := fills_of_capture hbare (by simp [hrepeated]) hu
    exact hrun.append (ih ht)
  | @group index suffix binds raw children inner rest items hrun hinner _ ihinner ih =>
    obtain ⟨u, hu, ht⟩ := mem_ways_seq.mp ht
    have hbound : boundOf (within none suffix raw) children = boundOf none children := by
      cases hrepeats : suffix.repeats with
      | false => simp [within, hrepeats]
      | true =>
        have hnames : namesOf children = [] := by simpa [isRun, hrepeats] using hrun
        have hnil : ∀ inside, boundOf inside children = [] := fun inside => by
          rw [← List.length_eq_zero_iff, length_boundOf, hnames, List.length_nil]
        rw [hnil, hnil]
    rw [boundOf, List.zipIdx_append, length_boundOf, hbound, Nat.add_right_comm]
    refine Fills.append (fills_of_loop (fun s t ht => ihinner ?_) hu) (ih ht)
    rwa [ways_nest hinner.holdsBare] at ht

end Aligned

/-! ### Captured texts -/

/-- A capture that encloses a way and is not crossed holds a text. -/
theorem Encloses.exists_captured {e : Regex} {text : Text} {index : Nat} {t : Cursor} (h : Encloses e text index t)
    (huncrossed : t.isCrossed index = false) : ∃ w, t.captured index = some w := by
  obtain ⟨u, v, hv, hu, hw, hfirst, hlast⟩ := h
  simp only [Cursor.isCrossed, hfirst, hlast, decide_eq_false_iff_not, Nat.not_lt] at huncrossed
  obtain ⟨w, hahead⟩ : v.ahead <:+ u.ahead := List.suffix_of_suffix_length_le ⟨_, hw⟩ ⟨_, hu⟩ huncrossed
  exact ⟨w, Cursor.captured_of_edges hfirst hlast hahead.symm⟩

/-- In a match of the expression of some tokens the capture of a variable that is not repeated holds nothing, or the
text that the variable's own expression took. -/
theorem Aligned.captured {ts : List Token} {items : List Item} (h : Aligned 0 ts items) {path : Text} {found : Cursor}
    (hfound : found ∈ (seqAll [seqAll (items.map Item.regex), optionalSlash]).ways (.ofText path))
    (hsound : (seqAll [seqAll (items.map Item.regex), optionalSlash]).crosses found = false) {i : Nat} {v : Variable}
    {c : Text} (hi : (boundOf none ts)[i]? = some (v, c)) (hv : v.repeated = none) :
    found.captured (i + 1) = none ∨
      ∃ e w, Regex.read c = .ok e ∧ Encloses e path (i + 1) found ∧ found.captured (i + 1) = some w := by
  obtain ⟨u, hu, hslash⟩ := mem_ways_seq.mp hfound
  have hfills := (h.fills hu).append (@fills_of_isBare _ _ (seqAll [optionalSlash]) ⟨trivial, trivial⟩ hslash)
  rw [List.append_nil, Nat.zero_add] at hfills
  rcases hfills.captures (i + 1) with hkeeps | ⟨v', c', hmem, hset⟩
  · left
    rw [Cursor.captured, hkeeps false]
    rfl
  · right
    obtain ⟨-, hmem⟩ := List.mk_mem_zipIdx_iff_le_and_getElem?_sub.mp hmem
    rw [Nat.add_sub_cancel, hi, Option.some.injEq, Prod.mk.injEq] at hmem
    obtain ⟨rfl, rfl⟩ := hmem
    obtain ⟨e, he, hencloses⟩ := hset hv
    have hcount : i < (seqAll [seqAll (items.map Item.regex), optionalSlash]).captureCount := by
      show i < (seqAll (items.map Item.regex)).captureCount + 0
      rw [h.captureCount, ← length_boundOf none]
      exact (List.getElem?_eq_some_iff.mp hi).1
    have huncrossed : found.isCrossed (i + 1) = false := by
      rw [crosses, List.any_eq_false] at hsound
      exact Bool.eq_false_iff.mpr (hsound i (List.mem_range.mpr hcount))
    obtain ⟨w, hw⟩ := hencloses.exists_captured huncrossed
    exact ⟨e, w, he, hencloses, hw⟩

end Routing.Pattern
