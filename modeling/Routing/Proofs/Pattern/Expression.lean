import Routing.Proofs.Pattern.Rule
import Routing.Proofs.Regex.Reading

/-!
# The expression of a rule

Where all variables have the default capture, the text of a rule is read as an expression that is put together token
by token: `itemsOf` are the items of the expression, one for each character of a literal, for each variable and for
each group. `reads_regexOf` follows the reader through the text of some tokens with any text behind it, `read_regexOf`
is the case of the whole rule.
-/

namespace Routing.Pattern

open Regex

/-! ### Lexemes -/

theorem steps_all_of_next {r q : Reading} {l : Lexeme} {t rest : Text} (hnext : Lexeme.next t = some (l, rest))
    (hstep : r.step l = .ok q) : r.steps (Lexeme.all t) = q.steps (Lexeme.all rest) := by
  rw [all_of_next hnext, Reading.steps, List.foldlM_cons, hstep]
  rfl

theorem next_of_special {c : Char} (h : c ∈ specials) (rest : Text) :
    Lexeme.next ('\\' :: c :: rest) = some (.point c.toNat, rest) := by
  simp only [specials, List.mem_cons, List.not_mem_nil, or_false] at h
  rcases h with rfl | rfl | rfl | rfl | rfl | rfl | rfl | rfl | rfl | rfl | rfl | rfl | rfl | rfl <;> rfl

theorem next_of_plain {c : Char} (h : c ∉ specials) (rest : Text) :
    Lexeme.next (c :: rest) = some (.point c.toNat, rest) := by
  apply next_point
  simp only [specials, lexemeStarts, List.mem_cons, List.not_mem_nil, or_false, not_or] at h ⊢
  tauto

/-- Whether a text is no manner of a count before it. -/
def Mannerless (y : Text) : Prop := y.head? ≠ some '?' ∧ y.head? ≠ some '+'

theorem mannerless_nil : Mannerless [] := ⟨nofun, nofun⟩

theorem mannerless_cons {c : Char} (h : c ≠ '?' ∧ c ≠ '+') (y : Text) : Mannerless (c :: y) := by
  simpa [Mannerless] using h

theorem Mannerless.append {t y : Text} (ht : Mannerless t) (hy : Mannerless y) : Mannerless (t ++ y) := by
  cases t with
  | nil => exact hy
  | cons c t => exact ht

theorem mannerOf_of_mannerless {y : Text} (h : Mannerless y) : mannerOf y = (.greedy, y) := by
  simpa [mannerOf] using mannerOf_append (t := []) h

/-! ### The default capture -/

/-- A run of characters other than one. -/
def runOf (d : Char) : Regex := .loop (.oneOf ⟨[.range d.toNat d.toNat], true, false⟩) 1 none false

/-- The characters other than those of a text. -/
def othersThan (delimiter : Text) : CharSet := ⟨delimiter.map fun c => .range c.toNat c.toNat, true, false⟩

/-- A run of characters other than those of a text. -/
def runWithout (delimiter : Text) : Regex := .loop (.oneOf (othersThan delimiter)) 1 none false

theorem classAtom_classEscape (c : Char) (rest : Text) :
    classAtom (classEscape [c] ++ rest) = some (.point c.toNat, rest) := by
  by_cases hc : c ∈ classSpecials
  · simp only [classSpecials, List.mem_cons, List.not_mem_nil, or_false] at hc
    rcases hc with rfl | rfl | rfl | rfl | rfl | rfl | rfl | rfl | rfl | rfl | rfl | rfl | rfl | rfl | rfl | rfl |
      rfl | rfl | rfl | rfl | rfl | rfl | rfl | rfl <;> rfl
  · have hslash : c ≠ '\\' := by
      rintro rfl
      exact hc (by decide)
    have hplain : classEscape [c] = [c] := by simp [classEscape, hc]
    rw [hplain, List.singleton_append, classAtom]
    · simp [hslash]
    · simp [hslash]

/-- An escaped text starts with none of the marks that a class is written with. -/
theorem head?_classEscape {mark : Char} (hmark : mark ∈ classSpecials) (hslash : mark ≠ '\\') (t : Text) :
    (classEscape t).head? ≠ some mark := by
  cases t with
  | nil => nofun
  | cons c t =>
    by_cases hc : c ∈ classSpecials
    · simpa [classEscape, hc] using hslash.symm
    · have hne : c ≠ mark := fun h => hc (h ▸ hmark)
      simpa [classEscape, hc] using hne

theorem classEscape_ne_nil (c : Char) (t : Text) : classEscape (c :: t) ≠ [] := by
  by_cases hc : c ∈ classSpecials <;> simp [classEscape, hc]

/-- A class lists the characters that it is written with. -/
theorem classItems_classEscape {delimiter : Text} {first : Bool} (h : first = true → delimiter ≠ []) (rest : Text) :
    classItems first (classEscape delimiter ++ ']' :: rest) =
      some (delimiter.map fun c => .range c.toNat c.toNat, rest) := by
  induction delimiter generalizing first with
  | nil =>
    have hfirst : first = false := Bool.eq_false_iff.mpr fun hfirst => h hfirst rfl
    rw [hfirst, classItems]
    rfl
  | cons c delimiter ih =>
    have hatom := classAtom_classEscape c (classEscape delimiter ++ ']' :: rest)
    have hrest := @ih false fun h => absurd h Bool.false_ne_true
    have hsplit : classEscape (c :: delimiter) ++ ']' :: rest =
        classEscape [c] ++ (classEscape delimiter ++ ']' :: rest) := by simp [classEscape]
    have hopen : (!first && (classEscape [c] ++ (classEscape delimiter ++ ']' :: rest)).head? == some ']') = false := by
      rw [← hsplit, List.head?_append_of_ne_nil _ (classEscape_ne_nil c delimiter), Bool.and_eq_false_imp]
      exact fun _ => beq_eq_false_iff_ne.mpr (head?_classEscape (by decide) (by decide) _)
    -- what follows is the closing bracket or another member, so it is no range
    obtain ⟨x, more, hmore, hdash⟩ : ∃ x more, classEscape delimiter ++ ']' :: rest = x :: more ∧ '-' ≠ x := by
      have hhead := @head?_classEscape '-' (by decide) (by decide) delimiter
      cases hescaped : classEscape delimiter with
      | nil => exact ⟨']', rest, rfl, by decide⟩
      | cons x more => exact ⟨x, _, rfl, by simpa [hescaped, eq_comm] using hhead⟩
    rw [hsplit, classItems, if_neg (Bool.eq_false_iff.mp hopen)]
    rw [hmore] at hatom hrest ⊢
    split <;> simp_all [ClassAtom.item]

/-! ### Texts that are read on their own -/

end Routing.Pattern

namespace Routing.Regex.Reading

/-- The state with more items and captures. -/
def extend (r : Reading) (items : List Item) (captures : Nat) : Reading :=
  { r with
    frame := { r.frame with items := items.reverse ++ r.frame.items }
    captures := r.captures + captures }

@[simp] theorem extend_nil (r : Reading) : r.extend [] 0 = r := rfl

@[simp] theorem extend_extend (r : Reading) (a b : List Item) (m n : Nat) :
    (r.extend a m).extend b n = r.extend (a ++ b) (m + n) := by
  simp [extend, Nat.add_assoc]

@[simp] theorem flags_extend (r : Reading) (items : List Item) (n : Nat) :
    (r.extend items n).frame.flags = r.frame.flags := rfl

@[simp] theorem captures_extend (r : Reading) (items : List Item) (n : Nat) :
    (r.extend items n).captures = r.captures + n := rfl

end Routing.Regex.Reading

namespace Routing.Pattern

open Regex

/-- Whether a text is read as some items and a number of captures, whatever is before it and after it, where `index`
captures were opened before it. -/
def Reads (index : Nat) (t : Text) (items : List Item) (captures : Nat) : Prop :=
  ∀ (r : Reading) (y : Text), r.frame.flags = {} → r.captures = index → Mannerless y →
    r.steps (Lexeme.all (t ++ y)) = (r.extend items captures).steps (Lexeme.all y)

theorem reads_nil (index : Nat) : Reads index [] [] 0 := fun _ _ _ _ _ => rfl

theorem Reads.append {index m n : Nat} {t u : Text} {a b : List Item} (ht : Reads index t a m)
    (hu : Reads (index + m) u b n) (hm : Mannerless u) : Reads index (t ++ u) (a ++ b) (m + n) := by
  intro r y hflags hindex hy
  rw [List.append_assoc, ht r (u ++ y) hflags hindex (hm.append hy),
    hu (r.extend a m) y hflags (by simp [hindex]) hy, Reading.extend_extend]

/-- Whether a text is read as some items and a number of captures, whatever is before it and whatever is after it that
is separate from it. -/
def ReadsApart (index : Nat) (t : Text) (items : List Item) (captures : Nat) : Prop :=
  ∀ (r : Reading) (y : Text), r.frame.flags = {} → r.captures = index → Separate y →
    r.steps (Lexeme.all (t ++ y)) = (r.extend items captures).steps (Lexeme.all y)

theorem Reads.apart {index n : Nat} {t : Text} {items : List Item} (h : Reads index t items n) :
    ReadsApart index t items n :=
  fun r y hflags hindex hy => h r y hflags hindex hy.manner

theorem Reads.append_apart {index m n : Nat} {t u : Text} {a b : List Item} (ht : Reads index t a m)
    (hu : ReadsApart (index + m) u b n) (hm : Mannerless u) : ReadsApart index (t ++ u) (a ++ b) (m + n) := by
  intro r y hflags hindex hy
  rw [List.append_assoc, ht r (u ++ y) hflags hindex (hm.append hy.manner),
    hu (r.extend a m) y hflags (by simp [hindex]) hy, Reading.extend_extend]

theorem separate_closing (y : Text) : Separate (')' :: y) := separate_cons (by decide) (by decide) y

theorem reads_escape (index : Nat) (t : Text) :
    Reads index (escape t) (t.map fun c => ⟨.oneOf (.single c false), .single⟩) 0 := by
  induction t with
  | nil => exact reads_nil index
  | cons c t ih =>
    intro r y hflags hindex hy
    have hnext : Lexeme.next (escape (c :: t) ++ y) = some (.point c.toNat, escape t ++ y) := by
      by_cases hc : c ∈ specials
      · simpa [escape, hc] using next_of_special hc (escape t ++ y)
      · simpa [escape, hc] using next_of_plain hc (escape t ++ y)
    have hstep : r.step (.point c.toNat) = .ok (r.extend [⟨.oneOf (.single c false), .single⟩] 0) := by
      simp [Reading.step, Reading.push, Frame.push, Reading.extend, CharSet.single, hflags]
    rw [steps_all_of_next hnext hstep, ih (r.extend _ 0) y hflags hindex hy]
    simp

theorem next_defaultCapture {delimiter : Text} (hdelimiter : delimiter ≠ []) (y : Text) :
    Lexeme.next (defaultCapture delimiter ++ y) =
      some (.set (delimiter.map fun c => .range c.toNat c.toNat) true, '+' :: y) := by
  have hitems := @classItems_classEscape delimiter true (fun _ => hdelimiter) ('+' :: y)
  simp only [defaultCapture, List.cons_append, List.append_assoc, List.nil_append] at hitems ⊢
  rw [Lexeme.next, hitems]
  rfl

theorem all_defaultCapture {delimiter : Text} (hdelimiter : delimiter ≠ []) :
    Lexeme.all (defaultCapture delimiter) =
      [.set (delimiter.map fun c => .range c.toNat c.toNat) true, .count 1 none .greedy] := by
  have hset := next_defaultCapture hdelimiter []
  rw [List.append_nil] at hset
  have hcount : Lexeme.next ['+'] = some (.count 1 none .greedy, []) := rfl
  rw [all_of_next hset, all_of_next hcount, all_nil]

theorem reads_defaultCapture (index : Nat) {delimiter : Text} (hdelimiter : delimiter ≠ []) :
    Reads index (defaultCapture delimiter) [⟨runWithout delimiter, .counted⟩] 0 := by
  intro r y hflags hindex hy
  have hcount : Lexeme.next ('+' :: y) = some (.count 1 none .greedy, y) := by
    rw [Lexeme.next, countLexeme, mannerOf_of_mannerless hy]
  have hstep : r.step (.set (delimiter.map fun c => .range c.toNat c.toNat) true) =
      .ok (r.push (.oneOf (othersThan delimiter)) .single) := by
    simp [Reading.step, othersThan, hflags]
  rw [steps_all_of_next (next_defaultCapture hdelimiter y) hstep, steps_all_of_next hcount rfl]
  rfl

/-- The least number of times that a group is there. -/
def Suffix.least : Suffix → Nat
  | optional => 0
  | star => 0
  | plus => 1

/-- The greatest number of times that a group is there, if there is one. -/
def Suffix.most : Suffix → Option Nat
  | optional => some 1
  | star => none
  | plus => none

theorem next_symbol (suffix : Suffix) {y : Text} (hy : Mannerless y) :
    Lexeme.next (suffix.symbol :: y) = some (.count suffix.least suffix.most .greedy, y) := by
  cases suffix <;> simp only [Suffix.symbol, Lexeme.next, countLexeme, mannerOf_of_mannerless hy] <;> rfl

/-- Closing a parenthesis gives one item for all that is inside. -/
theorem leave_extend (r : Reading) (closing : Closing) (flags : Flags) (items : List Item) (n : Nat) :
    (((r.enter closing flags).extend items n)).leave =
      some { r with
        frame := r.frame.push { closing, flags, items := items.reverse : Frame }.close .single
        captures := r.captures + n } := by
  simp [Reading.leave, Reading.enter, Reading.extend]

/-- Whether a text is read as an expression and a number of captures where it is all that stands in a parenthesis. -/
def ReadsInside (index : Nat) (t : Text) (body : Regex) (captures : Nat) : Prop :=
  ∀ (r : Reading) (closing : Closing) (y : Text), r.frame.flags = {} → r.captures = index →
    ∃ f : Frame, f.closing = closing ∧ f.body = body ∧
      (r.enter closing r.frame.flags).steps (Lexeme.all (t ++ ')' :: y)) =
        ({ r with frame := r.frame.push f.close .single, captures := r.captures + captures }).steps (Lexeme.all y)

theorem ReadsApart.inside {index n : Nat} {t : Text} {items : List Item} (h : ReadsApart index t items n) :
    ReadsInside index t (seqAll (items.map Item.regex)) n := by
  intro r closing y hflags hindex
  have hleave : ((r.enter closing r.frame.flags).extend items n).step .closing = .ok { r with
      frame := r.frame.push { closing, flags := r.frame.flags, items := items.reverse : Frame }.close .single
      captures := r.captures + n } := by
    rw [Reading.step, leave_extend]
    rfl
  refine ⟨{ closing, flags := r.frame.flags, items := items.reverse }, rfl, ?_, ?_⟩
  · simp [Frame.body, Frame.branch, altAll]
  · rw [h (r.enter closing r.frame.flags) _ hflags hindex (separate_closing y), steps_all_of_next rfl hleave]

theorem next_part (t y : Text) : Lexeme.next (part t ++ y) = some (.opening .plain, t ++ ')' :: y) := by
  simp [part, Lexeme.next, groupLexeme]

theorem next_group (t : Text) (suffix : Suffix) (y : Text) :
    Lexeme.next (part t ++ [suffix.symbol] ++ y) = some (.opening .plain, t ++ ')' :: suffix.symbol :: y) := by
  rw [List.append_assoc]
  exact next_part t _

/-- A parenthesis around a text that starts with no question mark is a capture. -/
theorem next_enclosed {t : Text} (hm : Mannerless t) (y : Text) :
    Lexeme.next ('(' :: t ++ [')'] ++ y) = some (.opening (.capturing none), t ++ ')' :: y) := by
  rw [List.append_assoc]
  exact next_parenthesis (hm.append (mannerless_cons (by decide) y)).1

/-- The count of a group. -/
theorem steps_symbol (r : Reading) (body : Regex) (n : Nat) (suffix : Suffix) {y : Text} (hy : Mannerless y) :
    (r.extend [⟨body, .single⟩] n).steps (Lexeme.all (suffix.symbol :: y)) =
      (r.extend [⟨.loop body.nest suffix.least suffix.most false, .counted⟩] n).steps (Lexeme.all y) := by
  apply steps_all_of_next (next_symbol suffix hy)
  cases suffix <;> rfl

/-- A text in parentheses is one item. -/
theorem steps_part {index n : Nat} {t : Text} {body : Regex} (h : ReadsInside index t body n) {r : Reading}
    (hflags : r.frame.flags = {}) (hindex : r.captures = index) (y : Text) :
    r.steps (Lexeme.all (part t ++ y)) = (r.extend [⟨body, .single⟩] n).steps (Lexeme.all y) := by
  obtain ⟨f, hclosing, hbody, hsteps⟩ := h r .plain y hflags hindex
  have hclose : f.close = body := by rw [Frame.close, hclosing, hbody]
  rw [steps_all_of_next (next_part t y) rfl, hsteps, hclose]
  rfl

/-- A text that is read on its own is read as the expression of its items. -/
theorem ReadsApart.read {n : Nat} {t : Text} {items : List Item} (h : ReadsApart 0 t items n) :
    Regex.read t = .ok (seqAll (items.map Item.regex)) := by
  have hsteps := h .start [] rfl rfl separate_nil
  rw [List.append_nil, all_nil, Reading.steps_nil] at hsteps
  rw [Regex.read, hsteps]
  simp [bind, Except.bind, Reading.finish, Reading.extend, Reading.start, Frame.close, Frame.body, Frame.branch, altAll]

/-- So is the text of its paths, with or without a slash at the end. -/
theorem ReadsApart.read_whole {n : Nat} {t : Text} {items : List Item} (h : ReadsApart 0 t items n) :
    Regex.read (part t ++ ['/', '?']) = .ok (seqAll [seqAll (items.map Item.regex), optionalSlash]) := by
  have hsteps := steps_part h.inside (r := .start) rfl rfl ['/', '?']
  have hslash : Lexeme.all ['/', '?'] = [.point 47, .count 0 (some 1) .greedy] := by
    rw [all_of_next (r := ['?']) rfl, all_of_next (r := []) rfl, all_nil]
    rfl
  rw [hslash] at hsteps
  rw [Regex.read, hsteps]
  rfl

theorem reads_part {index n : Nat} {t : Text} {body : Regex} (h : ReadsInside index t body n) (suffix : Suffix) :
    Reads index (part t ++ [suffix.symbol]) [⟨.loop body.nest suffix.least suffix.most false, .counted⟩] n := by
  intro r y hflags hindex hy
  rw [List.append_assoc, steps_part h hflags hindex]
  exact steps_symbol r body n suffix hy

/-- A capture around a text that starts with no question mark. -/
theorem reads_enclosed {index n : Nat} {t : Text} {body : Regex} (h : ReadsInside (index + 1) t body n)
    (hm : Mannerless t) :
    Reads index ('(' :: t ++ [')']) [⟨.capture (index + 1) body, .single⟩] (n + 1) := by
  intro r y hflags hindex hy
  let outer : Reading := { r with captures := r.captures + 1 }
  have henter : r.step (.opening (.capturing none)) = .ok (outer.enter (.capture (index + 1)) r.frame.flags) := by
    rw [← hindex]
    rfl
  obtain ⟨f, hclosing, hbody, hsteps⟩ := h outer (.capture (index + 1)) y hflags (by simp [outer, hindex])
  have hclose : f.close = .capture (index + 1) body := by rw [Frame.close, hclosing, hbody]
  rw [steps_all_of_next (next_enclosed hm y) henter]
  refine hsteps.trans ?_
  rw [hclose, Nat.add_comm n 1]
  simp only [outer, Reading.extend, Frame.push, Nat.add_assoc, List.reverse_singleton, List.singleton_append]

/-! ### The items of a rule -/

/-- How many captures the text of some tokens has of its own. -/
def groupsOf (inside : Bool) : List Token → Nat
  | [] => 0
  | .literal _ :: rest => groupsOf inside rest
  | .variable _ _ :: rest => (if inside then 0 else 1) + groupsOf inside rest
  | .group suffix _ _ children :: rest =>
    (if isRun inside suffix children then 1 else groupsOf (inside || suffix.repeats) children) + groupsOf inside rest

/-- A group as an expression. -/
def Suffix.loop (suffix : Suffix) (body : Regex) : Regex := .loop body suffix.least suffix.most false

/-- The items of some tokens all of whose captures are runs of characters other than `d`. There are `index` captures
before them. -/
def itemsOf (d : Char) (inside : Bool) (index : Nat) : List Token → List Item
  | [] => []
  | .literal text :: rest => text.map (fun c => ⟨.oneOf (.single c false), .single⟩) ++ itemsOf d inside index rest
  | .variable _ _ :: rest =>
    if inside then ⟨runOf d, .counted⟩ :: itemsOf d inside index rest
    else ⟨.capture (index + 1) (seqAll [runOf d]), .single⟩ :: itemsOf d inside (index + 1) rest
  | .group suffix _ _ children :: rest =>
    if isRun inside suffix children then
      let run := suffix.loop (seqAll ((itemsOf d true (index + 1) children).map Item.regex))
      ⟨.capture (index + 1) (seqAll [run]), .single⟩ :: itemsOf d inside (index + 1) rest
    else
      let run := suffix.loop (seqAll ((itemsOf d (inside || suffix.repeats) index children).map Item.regex))
      ⟨run, .counted⟩ :: itemsOf d inside (index + groupsOf (inside || suffix.repeats) children) rest

/-- The expression of some tokens. -/
def exprOf (d : Char) (inside : Bool) (index : Nat) (ts : List Token) : Regex :=
  seqAll ((itemsOf d inside index ts).map Item.regex)

theorem groupsOf_true (ts : List Token) : groupsOf true ts = 0 := by
  induction ts using tokens_induction with
  | nil => simp [groupsOf]
  | literal text rest ih => simpa [groupsOf] using ih
  | var name capture rest ih => simpa [groupsOf] using ih
  | group suffix binds raw children rest ihc ih => simp [groupsOf, isRun, ihc, ih]

theorem isRegular_itemsOf (d : Char) (inside : Bool) (index : Nat) (ts : List Token) :
    ∀ item ∈ itemsOf d inside index ts, item.regex.IsRegular := by
  induction ts using tokens_induction generalizing inside index with
  | nil => simp [itemsOf]
  | literal text rest ih =>
    rw [itemsOf, List.forall_mem_append]
    refine ⟨?_, ih inside index⟩
    simp only [List.mem_map]
    rintro item ⟨c, -, rfl⟩
    trivial
  | var name capture rest ih =>
    rw [itemsOf]
    split
    · exact List.forall_mem_cons.mpr ⟨trivial, ih _ _⟩
    · exact List.forall_mem_cons.mpr ⟨⟨trivial, trivial⟩, ih _ _⟩
  | group suffix binds raw children rest ihc ih =>
    have hbody : ∀ inside index, (seqAll ((itemsOf d inside index children).map Item.regex)).IsRegular := by
      intro inside index
      apply isRegular_seqAll
      simpa using ihc inside index
    rw [itemsOf]
    split
    · exact List.forall_mem_cons.mpr ⟨⟨hbody _ _, trivial⟩, ih _ _⟩
    · exact List.forall_mem_cons.mpr ⟨hbody _ _, ih _ _⟩

theorem isRegular_exprOf (d : Char) (inside : Bool) (index : Nat) (ts : List Token) :
    (exprOf d inside index ts).IsRegular := by
  apply isRegular_seqAll
  simpa using isRegular_itemsOf d inside index ts

theorem mannerless_escape (t : Text) : Mannerless (escape t) := by
  cases t with
  | nil => exact mannerless_nil
  | cons c t =>
    by_cases hc : c ∈ specials
    · simpa [escape, hc] using mannerless_cons (by decide) _
    · have hc' : c ≠ '?' ∧ c ≠ '+' := by
        simp only [specials, List.mem_cons, List.not_mem_nil, or_false, not_or] at hc
        tauto
      simpa [escape, hc] using mannerless_cons hc' _

theorem mannerless_regexOf {ts : List Token} (h : ∀ c ∈ capturesOf ts, Mannerless c) (inside : Bool) :
    Mannerless (regexOf inside ts) := by
  induction ts using tokens_induction generalizing inside with
  | nil => simpa [regexOf] using mannerless_nil
  | literal text rest ih =>
    rw [regexOf]
    exact (mannerless_escape text).append (ih (by simpa [capturesOf] using h) inside)
  | var name capture rest ih =>
    simp only [capturesOf, List.forall_mem_cons] at h
    rw [regexOf]
    refine Mannerless.append ?_ (ih h.2 inside)
    split
    · exact h.1
    · exact mannerless_cons (by decide) _
  | group suffix binds raw children rest ihc ih =>
    rw [regexOf]
    split <;> exact mannerless_cons (by decide) _

theorem mannerless_defaultCapture (delimiter : Text) : Mannerless (defaultCapture delimiter) :=
  mannerless_cons (by decide) _

theorem reads_regexOf {d : Char} {ts : List Token} (hd : ∀ c ∈ capturesOf ts, c = defaultCapture [d])
    (inside : Bool) (index : Nat) :
    Reads index (regexOf inside ts) (itemsOf d inside index ts) (groupsOf inside ts) := by
  have hm : ∀ {ts : List Token}, (∀ c ∈ capturesOf ts, c = defaultCapture [d]) →
      ∀ inside, Mannerless (regexOf inside ts) :=
    fun hd => mannerless_regexOf fun c hc => hd c hc ▸ mannerless_defaultCapture [d]
  induction ts using tokens_induction generalizing inside index with
  | nil => simpa [regexOf, itemsOf, groupsOf] using reads_nil index
  | literal text rest ih =>
    have hrest : ∀ c ∈ capturesOf rest, c = defaultCapture [d] := by simpa [capturesOf] using hd
    rw [regexOf, itemsOf, groupsOf, ← Nat.zero_add (groupsOf inside rest)]
    exact (reads_escape index text).append (ih hrest inside index) (hm hrest inside)
  | var name capture rest ih =>
    have hrest : ∀ c ∈ capturesOf rest, c = defaultCapture [d] := fun c hc => hd c (by simp [capturesOf, hc])
    rw [hd capture (by simp [capturesOf])] at *
    cases inside with
    | true =>
      simp only [regexOf, itemsOf, groupsOf, if_true]
      have hcapture : Reads index (defaultCapture [d]) [⟨runOf d, .counted⟩] 0 :=
        reads_defaultCapture index (List.cons_ne_nil d [])
      exact hcapture.append (ih hrest true index) (hm hrest true)
    | false =>
      simp only [regexOf, itemsOf, groupsOf, Bool.false_eq_true, if_false]
      have hcapture : Reads (index + 1) (defaultCapture [d]) [⟨runOf d, .counted⟩] 0 :=
        reads_defaultCapture (index + 1) (List.cons_ne_nil d [])
      have henclosed := reads_enclosed hcapture.apart.inside (mannerless_cons (by decide) _)
      exact henclosed.append (ih hrest false (index + 1)) (hm hrest false)
  | group suffix binds raw children rest ihc ih =>
    have hchildren : ∀ c ∈ capturesOf children, c = defaultCapture [d] := fun c hc => hd c (by simp [capturesOf, hc])
    have hrest : ∀ c ∈ capturesOf rest, c = defaultCapture [d] := fun c hc => hd c (by simp [capturesOf, hc])
    have hpart : ∀ inside index, Reads index (part (regexOf inside children) ++ [suffix.symbol])
        [⟨suffix.loop (exprOf d inside index children), .counted⟩] (groupsOf inside children) := by
      intro inside index
      have hnest : (seqAll ((itemsOf d inside index children).map Item.regex)).nest = exprOf d inside index children :=
        nest_of_isRegular (isRegular_exprOf d inside index children)
      have := reads_part (ihc hchildren inside index).apart.inside suffix
      rwa [hnest] at this
    rw [regexOf, itemsOf, groupsOf]
    -- a run is one capture, and its variables have none
    by_cases hrun : isRun inside suffix children = true
    · simp only [hrun, if_true]
      have hinside : (inside || suffix.repeats) = true := by simp_all [isRun]
      have henclosed := reads_enclosed (hpart true (index + 1)).apart.inside (mannerless_cons (by decide) _)
      rw [groupsOf_true] at henclosed
      rw [hinside]
      exact henclosed.append (ih hrest inside (index + 1)) (hm hrest inside)
    · simp only [hrun, Bool.false_eq_true, if_false]
      exact (hpart _ index).append (ih hrest inside _) (hm hrest inside)

/-- The text of a rule is read as the expression of its tokens. -/
theorem read_regexOf {d : Char} {inside : Bool} {ts : List Token} (hd : ∀ c ∈ capturesOf ts, c = defaultCapture [d]) :
    Regex.read (regexOf inside ts) = .ok (exprOf d inside 0 ts) :=
  (reads_regexOf hd inside 0).apart.read

/-- So is the text of its paths, with or without a slash at the end. -/
theorem read_whole {d : Char} {ts : List Token} (hd : ∀ c ∈ capturesOf ts, c = defaultCapture [d]) :
    Regex.read (part (regexOf false ts) ++ ['/', '?']) = .ok (seqAll [exprOf d false 0 ts, optionalSlash]) :=
  (reads_regexOf hd false 0).apart.read_whole

end Routing.Pattern
