import Routing.Proofs.Pattern.Balance

/-!
# Tokens are faithful to their pattern

Tokenizing loses nothing, at any depth: the tokens of a pattern, and those of each group in it, are written one after
the other in the text that they come from (`Faithful`). It fails only for brackets outside of braces that are not
balanced, and the error shows the whole pattern (`tokenize_faithful`).

A text between two groups becomes tokens without a group (`sourceOf_runTokens`). That no two literals are next to each
other needs a fact about the scan: it never leaves two texts side by side (`isChain_of_scan`).
-/

namespace Routing.Pattern

/-- Whether a token stands for itself. -/
def Token.isLiteral : Token → Bool
  | .literal _ => true
  | _ => false

/-- The texts that a token may come from. The default capture need not be written. -/
inductive Token.IsSource (default : Text) : Token → Text → Prop
  | literal (text : Text) : IsSource default (.literal text) text
  | bare (name : Text) : IsSource default (.variable name default) ('\x7b' :: name ++ ['\x7d'])
  | colon (name : Text) : IsSource default (.variable name default) ('\x7b' :: name ++ [':', '\x7d'])
  | captured (name : Text) {capture : Text} (h : capture ≠ []) :
    IsSource default (.variable name capture) ('\x7b' :: name ++ ':' :: capture ++ ['\x7d'])
  | group (suffix : Suffix) (binds : Option Text) (raw : Text) (children : List Token) :
    IsSource default (.group suffix binds raw children) ('[' :: raw ++ ']' :: suffix.written)

/-- Whether a text is made of the texts that some tokens may come from. -/
def SourceOf (default : Text) (ts : List Token) (t : Text) : Prop :=
  ∃ pieces, List.Forall₂ (Token.IsSource default) ts pieces ∧ pieces.flatten = t

/-- Whether two tokens are not both literals. -/
def Apart (a b : Token) : Prop := ¬(a.isLiteral = true ∧ b.isLiteral = true)

/-- Whether some tokens, but not those in groups, keep the text that they come from. -/
structure Faithful (default t : Text) (ts : List Token) : Prop where
  /-- The text is that of the tokens, one after the other. -/
  source : SourceOf default ts t
  /-- No literal is empty. -/
  nonempty : ∀ text, .literal text ∈ ts → text ≠ []
  /-- No literal is next to another one. -/
  apart : ts.IsChain Apart

/-- Whether a group has the fields that its suffix and its children call for. -/
structure FaithfulGroup (delimiter : Text) (suffix : Suffix) (binds : Option Text) (raw : Text)
    (children : List Token) : Prop where
  /-- The group keeps the text between its brackets. -/
  faithful : Faithful (defaultCapture delimiter) raw children
  /-- The children are the tokens of that text as a pattern by itself. -/
  tokenized : tokenize delimiter raw = .ok ⟨raw, children⟩
  /-- A group without a suffix may be absent, and so may one with a star. -/
  absent : suffix.mayBeAbsent = true ↔ suffix = .optional ∨ suffix = .star
  /-- A group that repeats takes its values from the last variable in it, if there is one. -/
  binds : binds = if suffix = .star ∨ suffix = .plus then (namesOf children).getLast? else none

/-! ### Texts of tokens -/

section SourceOf

variable {default : Text} {a b : List Token} {s t : Text}

theorem sourceOf_nil : SourceOf default [] [] := ⟨[], .nil, rfl⟩

theorem SourceOf.append (ha : SourceOf default a s) (hb : SourceOf default b t) :
    SourceOf default (a ++ b) (s ++ t) := by
  obtain ⟨ps, hps, rfl⟩ := ha
  obtain ⟨qs, hqs, rfl⟩ := hb
  exact ⟨ps ++ qs, List.rel_append hps hqs, List.flatten_append⟩

theorem sourceOf_singleton {token : Token} (h : token.IsSource default t) : SourceOf default [token] t :=
  ⟨[t], .cons h .nil, by simp⟩

theorem SourceOf.cons {token : Token} (h : token.IsSource default s) (hb : SourceOf default b t) :
    SourceOf default (token :: b) (s ++ t) :=
  (sourceOf_singleton h).append hb

theorem sourceOf_literalOf (reversed : Text) : SourceOf default (literalOf reversed) reversed.reverse := by
  cases reversed with
  | nil => exact sourceOf_nil
  | cons c reversed => exact sourceOf_singleton (.literal _)

/-- The text of a variable is the one that was read. -/
theorem isSource_of_variableAt {name capture after : Text} (h : variableAt default t = some (name, capture, after)) :
    ∃ front, (Token.variable name capture).IsSource default front ∧ '\x7b' :: t = front ++ after := by
  have htext : t = t.takeWhile Text.isWord ++ t.dropWhile Text.isWord := List.takeWhile_append_dropWhile.symm
  unfold variableAt at h
  simp only at h
  split at h
  · cases h
  · split at h
    · next heq =>
      simp only [Option.some.injEq, Prod.mk.injEq] at h
      obtain ⟨rfl, rfl, rfl⟩ := h
      refine ⟨_, .bare _, ?_⟩
      rw [heq] at htext
      simpa using htext
    · next more heq =>
      obtain ⟨⟨inside, rest⟩, hclose, he⟩ := Option.map_eq_some_iff.mp h
      simp only [Prod.mk.injEq] at he
      obtain ⟨rfl, rfl, rfl⟩ := he
      rw [heq, eq_of_closingBrace hclose] at htext
      -- an empty capture is the default one
      cases inside with
      | nil => exact ⟨_, .colon _, by simpa using htext⟩
      | cons c inside => exact ⟨_, .captured _ (List.cons_ne_nil c inside), by simpa using htext⟩
    · cases h

theorem sourceOf_runTokens (default literal t : Text) :
    SourceOf default (runTokens default literal t) (literal.reverse ++ t) := by
  fun_induction runTokens default literal t with
  | case1 literal => simpa using sourceOf_literalOf literal
  | case2 literal rest name capture after hvar ih =>
    obtain ⟨front, hfront, htext⟩ := isSource_of_variableAt hvar
    rw [htext]
    exact (sourceOf_literalOf literal).append (.cons hfront ih)
  | case3 literal rest hvar ih => simpa using ih
  | case4 literal c rest hc ih => simpa using ih

theorem sourceOf_partsTokens (default : Text) (parts : List Part) :
    SourceOf default (partsTokens default parts).1 (parts.flatMap Part.source) := by
  induction parts with
  | nil => simpa [partsTokens] using sourceOf_nil
  | cons part parts ih =>
    rw [List.flatMap_cons]
    cases part with
    | text t =>
      simp only [partsTokens, partTokens]
      exact (sourceOf_runTokens default [] t).append ih
    | group raw inner suffix =>
      simp only [partsTokens, partTokens]
      exact (sourceOf_singleton (.group ..)).append ih

end SourceOf

/-! ### Literals -/

theorem mem_literalOf {text reversed : Text} (h : .literal text ∈ literalOf reversed) : text ≠ [] := by
  cases reversed with
  | nil => cases h
  | cons c reversed =>
    rw [literalOf, if_neg (by simp), List.mem_singleton] at h
    rw [Token.literal.inj h]
    simp

theorem ne_nil_of_mem_runTokens {default literal t text : Text} (h : .literal text ∈ runTokens default literal t) :
    text ≠ [] := by
  fun_induction runTokens default literal t with
  | case1 literal => exact mem_literalOf h
  | case2 literal rest name capture after hvar ih =>
    rcases List.mem_append.mp h with h | h
    · exact mem_literalOf h
    · rcases List.mem_cons.mp h with h | h
      · cases h
      · exact ih h
  | case3 literal rest hvar ih => exact ih h
  | case4 literal c rest hc ih => exact ih h

theorem ne_nil_of_mem_partsTokens {default text : Text} {parts : List Part}
    (h : .literal text ∈ (partsTokens default parts).1) : text ≠ [] := by
  induction parts with
  | nil => simp [partsTokens] at h
  | cons part parts ih =>
    cases part with
    | text t =>
      simp only [partsTokens, partTokens, List.mem_append] at h
      exact h.elim ne_nil_of_mem_runTokens ih
    | group raw inner suffix => exact ih (by simpa [partsTokens, partTokens] using h)

theorem apart_left {a : Token} (h : a.isLiteral = false) (b : Token) : Apart a b := by simp [Apart, h]

theorem apart_right {b : Token} (h : b.isLiteral = false) (a : Token) : Apart a b := by simp [Apart, h]

theorem isChain_literalOf (reversed : Text) : (literalOf reversed).IsChain Apart := by
  cases reversed <;> simp [literalOf]

/-- A token that is no literal keeps those before it and after it apart. -/
theorem isChain_append_cons {a b : List Token} {token : Token} (ha : a.IsChain Apart) (hb : b.IsChain Apart)
    (h : token.isLiteral = false) : (a ++ token :: b).IsChain Apart := by
  rw [List.isChain_append]
  refine ⟨ha, ?_, ?_⟩
  · rw [List.isChain_cons]
    exact ⟨fun y _ => apart_left h y, hb⟩
  · intro x _ y hy
    rw [List.head?_cons, Option.mem_some_iff] at hy
    exact hy ▸ apart_right h x

theorem isChain_runTokens (default literal t : Text) : (runTokens default literal t).IsChain Apart := by
  fun_induction runTokens default literal t with
  | case1 literal => exact isChain_literalOf literal
  | case2 literal rest name capture after hvar ih => exact isChain_append_cons (isChain_literalOf literal) ih rfl
  | case3 literal rest hvar ih => exact ih
  | case4 literal c rest hc ih => exact ih

/-! ### Texts of an outline -/

namespace Part

/-- Whether a piece is a text. -/
def isText : Part → Bool
  | text _ => true
  | group .. => false

/-- Whether two pieces are not both texts. -/
def Apart (a b : Part) : Prop := ¬(a.isText = true ∧ b.isText = true)

/-- Whether no two texts among the finished pieces of an open bracket are next to each other. -/
def Open.Parted (o : Open) : Prop := o.parts.IsChain Apart

/-- Whether the current text may be put behind the finished pieces. -/
def Open.Fresh (o : Open) : Prop := ∀ p ∈ o.parts.head?, p.isText = false

theorem Apart.symm {a b : Part} (h : Apart a b) : Apart b a := fun hb => h hb.symm

theorem isChain_reverse {parts : List Part} : parts.reverse.IsChain Apart ↔ parts.IsChain Apart := by
  rw [List.isChain_reverse]
  exact ⟨List.IsChain.imp fun _ _ => Apart.symm, List.IsChain.imp fun _ _ => Apart.symm⟩

theorem Open.Parted.pieces {o : Open} (h : o.Parted) (hfresh : o.Fresh) : o.pieces.IsChain Apart := by
  rw [Open.pieces, isChain_reverse]
  split
  · exact h
  · rw [List.isChain_cons]
    refine ⟨fun p hp => ?_, h⟩
    simp [Apart, hfresh p hp]

theorem Open.Parted.add {o : Open} (h : o.Parted) (inner : List Part) (suffix : Suffix) :
    (o.add inner suffix).Parted := by
  rw [Open.Parted, Open.add, List.isChain_cons]
  exact ⟨fun p _ => by simp [Apart, isText], h⟩

/-- A scan leaves no two texts side by side, at the top. -/
theorem isChain_of_scan {braces : Nat} {inner : Open} {outer : List Open} {t : Text} {parts : List Part}
    (h : scan braces inner outer t = some parts) (hinner : inner.Parted) (hfresh : inner.Fresh)
    (houter : ∀ o ∈ outer, o.Parted) : parts.IsChain Apart := by
  fun_induction scan braces inner outer t with
  | case1 braces inner outer hempty =>
    rw [← Option.some.inj h]
    exact hinner.pieces hfresh
  | case2 => cases h
  | case3 braces inner outer c rest hc ih => exact ih h hinner hfresh houter
  | case4 braces inner outer rest hc ih =>
    refine ih h .nil (by simp [Open.Fresh]) (List.forall_mem_cons.mpr ⟨?_, houter⟩)
    rw [Open.Parted, Open.rest, isChain_reverse]
    exact hinner.pieces hfresh
  | case5 => cases h
  | case6 braces inner rest around others h₁ h₂ ih =>
    rw [List.forall_mem_cons] at houter
    exact ih h (houter.1.add _ _) (by simp [Open.Fresh, Open.add, isText]) houter.2
  | case7 braces inner outer c rest h₁ h₂ h₃ ih => exact ih h hinner hfresh houter

end Part

/-- The first token of pieces that start with no text is no literal. -/
theorem head?_partsTokens {default : Text} {parts : List Part} (h : ∀ p ∈ parts.head?, p.isText = false) :
    ∀ token ∈ (partsTokens default parts).1.head?, token.isLiteral = false := by
  cases parts with
  | nil => simp [partsTokens]
  | cons part parts =>
    cases part with
    | text t => exact absurd (h _ rfl) (by simp [Part.isText])
    | group raw inner suffix => simp [partsTokens, partTokens, Token.isLiteral]

theorem isChain_partsTokens (default : Text) {parts : List Part} (h : parts.IsChain Part.Apart) :
    (partsTokens default parts).1.IsChain Apart := by
  induction parts with
  | nil => simp [partsTokens]
  | cons part parts ih =>
    rw [List.isChain_cons] at h
    cases part with
    | text t =>
      have hhead : ∀ p ∈ parts.head?, p.isText = false := by
        intro p hp
        simpa [Part.Apart, Part.isText] using h.1 p hp
      simp only [partsTokens, partTokens]
      rw [List.isChain_append]
      refine ⟨isChain_runTokens default [] t, ih h.2, fun x _ y hy => ?_⟩
      exact apart_right (head?_partsTokens hhead y hy) x
    | group raw inner suffix => exact isChain_append_cons .nil (ih h.2) rfl

theorem faithful_of_scan (default : Text) {t : Text} {parts : List Part} (h : Part.scan 0 {} [] t = some parts) :
    Faithful default t (partsTokens default parts).1 where
  source := by
    have := sourceOf_partsTokens default parts
    rwa [Part.flatMap_source h] at this
  nonempty := fun _ => ne_nil_of_mem_partsTokens
  apart := isChain_partsTokens default (Part.isChain_of_scan h .nil (by simp [Part.Open.Fresh]) (by simp))

/-! ### Last variables -/

theorem lastVariable_eq {ts : List Token} (h : GroupsAll (fun _ _ _ _ => False) ts) :
    lastVariable ts = (namesOf ts).getLast? := by
  induction ts using tokens_induction with
  | nil => rfl
  | literal text rest ih =>
    rw [GroupsAll] at h
    rw [lastVariable, ih h, namesOf, Token.names, List.nil_append]
    intro name capture h
    cases h
  | var name capture rest ih =>
    rw [GroupsAll] at h
    rw [lastVariable, ih h, namesOf, Token.names, List.getLast?_append, List.getLast?_singleton]
  | group suffix binds raw children rest ihc ih =>
    rw [GroupsAll] at h
    exact h.1.elim

/-- The last variable of some pieces is the last one in their tokens. -/
theorem snd_partsTokens (default : Text) :
    ∀ parts : List Part, (partsTokens default parts).2 = (namesOf (partsTokens default parts).1).getLast?
  | [] => rfl
  | .text t :: rest => by
    have hrun := lastVariable_eq (groupsAll_runTokens default [] t)
    simp only [partsTokens, partTokens, namesOf_append, List.getLast?_append, hrun, snd_partsTokens default rest]
  | .group raw inner suffix :: rest => by
    simp only [partsTokens, partTokens, namesOf_append, namesOf, Token.names, List.append_nil, List.getLast?_append,
      snd_partsTokens default inner, snd_partsTokens default rest]

/-! ### Patterns -/

theorem faithfulGroup_of_tokenize {delimiter pattern : Text} {t : Tokenized} (h : tokenize delimiter pattern = .ok t) :
    GroupsAll (FaithfulGroup delimiter) t.tokens := by
  refine groupsAll_of_tokenize h fun raw inner suffix hraw => ?_
  refine ⟨faithful_of_scan _ hraw, tokenize_of_scan hraw, ?_, ?_⟩
  · cases suffix <;> decide
  · rw [snd_partsTokens]
    cases suffix <;> rfl

theorem tokenize_eq_error_iff {delimiter pattern : Text} {e : PatternError} :
    tokenize delimiter pattern = .error e ↔ e = .unbalanced pattern ∧ ¬Balanced '[' ']' 0 (outside pattern) := by
  have hscan := Part.isSome_scan_iff 0 {} [] pattern
  rw [afterBraces, List.length_nil] at hscan
  rw [← hscan, tokenize, Part.outline]
  cases Part.scan 0 {} [] pattern with
  | none =>
    show Except.error _ = _ ↔ _
    simp [eq_comm]
  | some parts =>
    show Except.ok _ = _ ↔ _
    simp

/-- A pattern is refused exactly where the brackets outside of its runs in braces are not balanced, and the error shows
all of it. The tokens of any other one keep its text, in every group as at the top. -/
theorem tokenize_faithful (delimiter pattern : Text) :
    (∀ e, tokenize delimiter pattern = .error e ↔
      e = .unbalanced pattern ∧ ¬Balanced '[' ']' 0 (outside pattern)) ∧
    ∀ t, tokenize delimiter pattern = .ok t →
      t.source = pattern ∧ Faithful (defaultCapture delimiter) pattern t.tokens ∧
        GroupsAll (FaithfulGroup delimiter) t.tokens := by
  refine ⟨fun e => tokenize_eq_error_iff, fun t h => ?_⟩
  obtain ⟨parts, hparts, htokens⟩ := tokenize_eq_ok h
  refine ⟨?_, ?_, faithfulGroup_of_tokenize h⟩
  · obtain ⟨found, -, hfound⟩ := bind_eq_ok.mp h
    rw [← Except.ok.inj hfound]
  · rw [htokens]
    exact faithful_of_scan _ hparts

/-- A bracket too many is refused. A group in a group keeps its text, as does a brace that nothing closes, which hides
the bracket behind it. -/
theorem nested_groups_are_faithful :
    tokenize ['/'] "x[a]]".toList = .error (.unbalanced "x[a]]".toList) ∧
    ∃ t, tokenize ['/'] "x[.\x7bw:\x7d[/\x7bv:[a]\x7b2\x7d\x7d]+]\x7b[".toList = .ok t ∧
      t.tokens = [.literal ['x'],
        .group .optional none ".\x7bw:\x7d[/\x7bv:[a]\x7b2\x7d\x7d]+".toList [.literal ['.'],
          .variable ['w'] "[^/]+".toList,
          .group .plus (some ['v']) "/\x7bv:[a]\x7b2\x7d\x7d".toList
            [.literal ['/'], .variable ['v'] "[a]\x7b2\x7d".toList]],
        .literal "\x7b[".toList] ∧
      Faithful (defaultCapture ['/']) "x[.\x7bw:\x7d[/\x7bv:[a]\x7b2\x7d\x7d]+]\x7b[".toList t.tokens ∧
      GroupsAll (FaithfulGroup ['/']) t.tokens := by
  constructor
  · have houtside : outside "x[a]]".toList = "x[a]]".toList := by cbv
    refine ((tokenize_faithful _ _).1 _).mpr ⟨rfl, ?_⟩
    rw [houtside]
    decide
  · refine ⟨⟨"x[.\x7bw:\x7d[/\x7bv:[a]\x7b2\x7d\x7d]+]\x7b[".toList, _⟩, ?tokens, rfl,
      ((tokenize_faithful _ _).2 _ ?tokens).2⟩
    case tokens => cbv

end Routing.Pattern
