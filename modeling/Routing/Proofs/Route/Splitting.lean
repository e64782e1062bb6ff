import Routing.Proofs.Pattern.Composing
import Routing.Proofs.Pattern.Filling
import Routing.Proofs.Pattern.Printing
import Routing.Proofs.Route.Precedence
import Routing.Proofs.Route.RoundTrip
import Routing.Proofs.Tree.Precedence

/-!
# Splitting a run

The pattern `w[/{v:c}]*` takes a literal and a run of items. A run is matched as a whole, but it is cut into its items
by a search that takes of each item what the capture takes of it at first. So a route with this pattern reads back as
many texts as its path was written for, but of each one only what the capture takes at first (`matchPath_run`): a lazy
capture, or one that finds a short choice before a longer one, cuts them short (`lazy_capture_cuts_items`).
-/

namespace Routing

open Pattern

namespace Pattern

/-! ### The pattern of a run -/

/-- The tokens of one round. -/
def roundTokens (name capture : Text) : List Token := [.literal ['/'], .variable name capture]

/-- A literal and a run. -/
def literalRun (literal name capture : Text) : List Token :=
  [.literal literal, .group .star (some name) (written (roundTokens name capture)) (roundTokens name capture)]

/-- The pattern `literal[/{name:capture}]*`. -/
def runPattern (literal name capture : Text) : Text :=
  literal ++ '[' :: '/' :: '\x7b' :: name ++ ':' :: capture ++ ['\x7d', ']', '*']

/-- Whether a literal, a name and a capture make such a pattern, where the capture is written with characters, classes,
groups that capture nothing and counts that may give back, and takes no slash. -/
structure IsRunPattern (literal name capture : Text) : Prop where
  literal : IsPlainText literal
  name : IsName name
  braces : capture ≠ [] ∧ Balanced '\x7b' '\x7d' 0 capture
  plain : IsPlainCapture capture
  /-- No bar of the capture is outside of its groups. -/
  closed : Regex.depthAfter 0 (Regex.brackets (Regex.Lexeme.all capture)) = some 0
  slashless : ∀ u ∈ takenBy capture, '/' ∉ u

variable {literal name capture : Text}

theorem written_literalRun : written (literalRun literal name capture) = runPattern literal name capture := by
  simp [literalRun, roundTokens, runPattern, written, Suffix.written]

/-- Such a pattern, where all of it can be checked by evaluation. -/
theorem isRunPattern_of_read {e : Regex} {lexemes : List Regex.Lexeme} (hliteral : IsPlainText literal)
    (hname : IsName name) (hbraces : capture ≠ [] ∧ Balanced '\x7b' '\x7d' 0 capture)
    (he : Regex.read capture = .ok e) (hall : Regex.Lexeme.all capture = lexemes)
    (hplain : ∀ l ∈ lexemes, l.isPlain = true) (hclosed : Regex.depthAfter 0 (Regex.brackets lexemes) = some 0)
    (havoids : e.avoids '/' = true) : IsRunPattern literal name capture := by
  subst hall
  refine ⟨hliteral, hname, hbraces, ⟨⟨e, he⟩, hplain⟩, hclosed, ?_⟩
  rw [takenBy_of_read he (Regex.isRegular_of_read he hplain)]
  exact Regex.not_mem_of_avoids havoids

namespace IsRunPattern

variable (h : IsRunPattern literal name capture)

include h

theorem isPrintable_roundTokens : IsPrintable (roundTokens name capture) := by
  simp [roundTokens, IsPrintable, IsPlainText, Token.isLiteral, h.name, h.braces]

theorem isPrintable_literalRun : IsPrintable (literalRun literal name capture) := by
  have hround := h.isPrintable_roundTokens
  have hlast : (namesOf (roundTokens name capture)).getLast? = some name := by
    simp [roundTokens, namesOf, Token.names]
  simp [literalRun, IsPrintable, Token.isLiteral, Suffix.repeats, h.literal, hround, hlast]

theorem tokenize_round (delimiter : Text) :
    tokenize delimiter (written (roundTokens name capture)) =
      .ok ⟨written (roundTokens name capture), roundTokens name capture⟩ := by
  obtain ⟨parts, hscan, htokens⟩ := exists_scan_written (defaultCapture delimiter) h.isPrintable_roundTokens
  rw [tokenize_of_scan hscan, htokens]

theorem tokenize_runPattern (delimiter : Text) :
    tokenize delimiter (runPattern literal name capture) =
      .ok ⟨runPattern literal name capture, literalRun literal name capture⟩ := by
  rw [← written_literalRun]
  obtain ⟨parts, hscan, htokens⟩ := exists_scan_written (defaultCapture delimiter) h.isPrintable_literalRun
  rw [tokenize_of_scan hscan, htokens]

/-- The slashes at the start of the literal may be left out, if something is left of it. -/
theorem dropLeading (hne : Text.dropLeading '/' literal ≠ []) :
    IsRunPattern (Text.dropLeading '/' literal) name capture := by
  refine ⟨⟨hne, ?_⟩, h.name, h.braces, h.plain, h.closed, h.slashless⟩
  intro c hc
  exact h.literal.2 c ((List.dropWhile_sublist _).mem hc)

end IsRunPattern

theorem dropLeading_runPattern (hne : Text.dropLeading '/' literal ≠ []) :
    Text.dropLeading '/' (runPattern literal name capture) =
      runPattern (Text.dropLeading '/' literal) name capture := by
  have hdrop (y : Text) : Text.dropLeading '/' (literal ++ y) = Text.dropLeading '/' literal ++ y := by
    have hempty : (literal.dropWhile (· == '/')).isEmpty = false := by simpa [Text.dropLeading] using hne
    rw [Text.dropLeading, List.dropWhile_append, hempty]
    rfl
  simp only [runPattern, List.append_assoc, hdrop]

theorem capturesOf_literalRun : capturesOf (literalRun literal name capture) = [capture] := by
  simp [literalRun, roundTokens, capturesOf]

theorem namesOf_literalRun : namesOf (literalRun literal name capture) = [name] := by
  simp [literalRun, roundTokens, namesOf, Token.names]

theorem splitSuffix_runPattern :
    splitSuffix (runPattern literal name capture) = (runPattern literal name capture, []) := by
  apply splitSuffix_of_getLast? (c := '*')
  · rw [runPattern, List.getLast?_append]
    rfl
  · decide

end Pattern

/-! ### Its parts -/

namespace RoutePattern

/-- Whether a pattern is that of a literal and a run whose items are captured by `e`. -/
structure IsRun (p : RoutePattern) (literal name capture : Text) (e : Regex) : Prop where
  assigned : p.Assigned ['/']
  tokens : p.tokens.tokens = literalRun literal name capture
  queryNames : p.queryNames = []
  item : Regex.read capture = .ok e
  splitters : p.splitters = [(name, roundOf e)]

end RoutePattern

namespace Pattern.IsRunPattern

variable {literal name capture : Text} (h : IsRunPattern literal name capture)

include h

theorem spliceable : Spliceable false (literalRun literal name capture) := by
  simp [literalRun, roundTokens, Spliceable, Suffix.repeats, regexOf, Regex.all_nil, h.closed]

/-- The rule of a round is read as a slash and the capture. -/
theorem outcome_splittersOf {e : Regex} (he : Regex.read capture = .ok e) :
    (splittersOf [⟨name, some (written (roundTokens name capture))⟩]).outcome = .ok [(name, roundOf e)] := by
  have hrule : (ruleTraced ['/'] (written (roundTokens name capture))).outcome =
      .ok ⟨regexOf false (roundTokens name capture), [⟨name, none⟩]⟩ := by
    refine ruleTraced_eq_ok.mpr ⟨_, h.tokenize_round ['/'], ?_⟩
    simp [roundTokens, Tokenized.rule, tokensRule, Token.rule, declare, regexOf, bind, Except.bind]
  have hread : readRegex (regexOf false (roundTokens name capture)) = .ok (roundOf e) :=
    readRegex_eq_ok.mpr (read_round h.plain he)
  refine Traced.bind_outcome_eq_ok.mpr ⟨_, hrule, Traced.bind_outcome_eq_ok.mpr ⟨_, hread, ?_⟩⟩
  exact Traced.bind_outcome_eq_ok.mpr ⟨[], rfl, rfl⟩

theorem denotes : Denotes 0 (regexOf false (literalRun literal name capture))
    (groupsOf false (literalRun literal name capture)) (wordsBy takenBy (literalRun literal name capture)) := by
  have hcaptures : ∀ c ∈ capturesOf (literalRun literal name capture), IsPlainCapture c := by
    rw [capturesOf_literalRun]
    exact List.forall_mem_singleton.mpr h.plain
  exact denotes_regexOf hcaptures h.spliceable 0

/-- Such a pattern is assigned without an error. -/
theorem exists_assigned :
    ∃ (p : RoutePattern) (e : Regex), p.IsRun literal name capture e ∧ p.path = runPattern literal name capture := by
  obtain ⟨e, he⟩ := h.plain.valid
  obtain ⟨entry, hentry, hwhole, -, -⟩ := h.denotes.read_whole
  have hrule : Tokenized.rule ⟨runPattern literal name capture, literalRun literal name capture⟩ =
      .ok ⟨regexOf false (literalRun literal name capture), [⟨name, some (written (roundTokens name capture))⟩]⟩ := by
    simp [literalRun, roundTokens, Tokenized.rule, tokensRule, Token.rule, declare, regexOf, bind, Except.bind,
      Suffix.repeats, isRun, namesOf, Token.names]
  let p : RoutePattern :=
    ⟨runPattern literal name capture, [], ⟨runPattern literal name capture, literalRun literal name capture⟩,
      ⟨regexOf false (literalRun literal name capture), [⟨name, some (written (roundTokens name capture))⟩]⟩, entry,
      Regex.seqAll [entry, Regex.optionalSlash], [(name, roundOf e)]⟩
  have hassigned : p.Assigned ['/'] :=
    ⟨h.tokenize_runPattern ['/'], hrule, hentry, hwhole, h.outcome_splittersOf he⟩
  exact ⟨p, e, ⟨hassigned, rfl, rfl, he, rfl⟩, rfl⟩

end Pattern.IsRunPattern

namespace RoutePattern.IsRun

variable {p : RoutePattern} {literal name capture : Text} {e : Regex} (h : IsRunPattern literal name capture)
  (hp : p.IsRun literal name capture e)

include hp

theorem read_entry : Regex.read (regexOf false (literalRun literal name capture)) = .ok p.entry := by
  have hentry := hp.assigned.entry
  rwa [hp.assigned.regex_eq, hp.tokens] at hentry

include h

theorem entry_language :
    p.entry.IsRegular ∧ p.entry.language = wordsBy takenBy (literalRun literal name capture) := by
  obtain ⟨e, he, hregular, hlanguage⟩ := h.denotes.read
  have hentry := hp.read_entry
  rw [he, Except.ok.injEq] at hentry
  exact hentry ▸ ⟨hregular, hlanguage⟩

/-- The expression of the pattern takes the literal and captures the run. -/
theorem exists_entry : ∃ body : Regex, body.IsBare ∧ p.entry.captureCount = 1 ∧
    p.entry = Regex.seqAll (literal.map (fun c => .oneOf (.single c false)) ++ [.capture 1 body]) := by
  have hfree : ∀ c ∈ capturesOf (literalRun literal name capture), IsFreeCapture c := by
    rw [capturesOf_literalRun]
    refine List.forall_mem_singleton.mpr ⟨h.plain.valid, fun name hmem => ?_⟩
    cases h.plain.plain _ hmem
  have hone : OneEach (literalRun literal name capture) := by
    simp [literalRun, roundTokens, OneEach, Suffix.repeats, namesOf, Token.names]
  obtain ⟨items, hitems, hentry⟩ := aligned_of_read hfree hone (hp.read_entry)
  have hcount := hitems.captureCount
  rw [← hentry, namesOf_literalRun, List.length_singleton] at hcount
  rw [hentry] at hcount ⊢
  cases hitems with
  | literal hgroup =>
    cases hgroup with
    | run _ _ hbare hrest =>
      cases hrest
      refine ⟨_, hbare, hcount, ?_⟩
      rw [List.map_append, List.map_map]
      rfl
    | group hrun => simp [isRun, Suffix.repeats, roundTokens, namesOf, Token.names] at hrun

/-- The expression takes the literal, and captures what it takes after it. -/
theorem captured_of_mem_ways {s u : Regex.Cursor} (hu : u ∈ p.entry.ways s) :
    ∃ run, s.ahead = literal ++ (run ++ u.ahead) ∧ u.captured 1 = some run := by
  obtain ⟨hregular, -⟩ := hp.entry_language h
  obtain ⟨body, hbare, -, hentry⟩ := hp.exists_entry h
  rw [hentry] at hu hregular
  obtain ⟨hliteral, hcapture, -⟩ := isRegular_seqAll_append.mp hregular
  have hbody : body.IsRegular := hcapture
  obtain ⟨v, hv, hu⟩ := Regex.mem_ways_seqAll_append.mp hu
  obtain ⟨t, ht, hu⟩ := Regex.mem_ways_seq.mp hu
  obtain rfl : u = t := by simpa [Regex.ways] using hu
  obtain ⟨w, hw, hstart⟩ := Regex.exists_mem_language hliteral hv
  rw [language_literal] at hw
  obtain rfl : w = literal := hw
  obtain ⟨run, -, hrun, hcaptured, -⟩ := Regex.captured_of_mem_ways hbody (Regex.captureCount_of_isBare hbare) ht
  rw [hrun] at hstart
  exact ⟨run, hstart, hcaptured⟩

/-- A literal and a run of items are matched, and the run is captured. -/
theorem captured_run {items : List Text} (hitems : ∀ x ∈ items, x ≠ [] ∧ x ∈ takenBy capture) :
    ∃ found, p.whole.matchWhole (literal ++ runText items) = some found ∧
      found.captured 1 = some (runText items) := by
  obtain ⟨hregular, hlanguage⟩ := hp.entry_language h
  have hword : literal ++ runText items ∈ p.entry.language := by
    have hround : wordsBy takenBy (roundTokens name capture) = {['/']} * takenBy capture := by
      rw [roundTokens, wordsBy, wordsBy, wordsBy, mul_one]
    rw [hlanguage, literalRun, wordsBy, wordsBy, wordsBy, mul_one, hround]
    exact Language.append_mem_mul rfl (mem_items.mpr ⟨items, fun x hx => (hitems x hx).2, rfl⟩)
  obtain ⟨found, u, hfound, hu, hend, hsame⟩ := exists_matchWhole_of_mem_language hregular hword
  refine ⟨found, hp.assigned.whole_eq ▸ hfound, ?_⟩
  obtain ⟨run, hrun, hcaptured⟩ := hp.captured_of_mem_ways h hu
  have hall : runText items = run ++ u.ahead := List.append_cancel_left hrun
  rw [hsame, hcaptured]
  rcases hend with hnil | hslash
  · rw [hall, hnil, List.append_nil]
  · -- a run does not end with a slash
    have hwithout : ∀ x ∈ items, x ∈ without '/' :=
      fun x hx => ⟨(hitems x hx).1, h.slashless x (hitems x hx).2⟩
    rw [hslash] at hall
    exact absurd hall (runText_ne hwithout run)

/-- What the values of the run are, if it is captured. -/
theorem values_run {items : List Text} (hitems : ∀ x ∈ items, x ∈ takenBy capture) {found : Regex.Cursor}
    (hfound : found.captured 1 = some (runText items)) :
    Route.valuesFrom p found 1 p.rule.vars =
      .ok [(name, .list (items.map fun x => .str (Text.percentDecode (firstTaken e x))))] := by
  have hregular : e.IsRegular := Regex.isRegular_of_read hp.item h.plain.plain
  have hbare : e.IsBare := Regex.builds_isBare.read hp.item fun l hl =>
    Regex.Lexeme.isFree_of_isBare (Regex.Lexeme.isBare_of_isPlain (h.plain.plain l hl))
  have htaken : takenBy capture = e.language := takenBy_of_read hp.item hregular
  have hvars : p.rule.vars = [⟨name, some (Pattern.written (roundTokens name capture))⟩] := by
    rw [hp.assigned.vars_eq, hp.tokens]
    simp [literalRun, roundTokens, varsOf, within, Suffix.repeats]
  have hcount : p.whole.captureCount = 1 := by
    obtain ⟨body, -, hone, -⟩ := hp.exists_entry h
    rw [hp.assigned.whole_eq]
    show p.entry.captureCount + 0 = 1
    rw [hone]
  have hsplit := Route.splitRun_runText hregular (Regex.captureCount_of_isBare hbare) (htaken ▸ h.slashless)
    (htaken ▸ hitems)
  have hlookup : p.splitters.lookup name = some (roundOf e) := by
    rw [hp.splitters]
    exact List.lookup_cons_self
  have hvalue : Route.variableValue p ⟨name, some (Pattern.written (roundTokens name capture))⟩
      (some (runText items)) = .ok (.list (items.map fun x => .str (Text.percentDecode (firstTaken e x)))) := by
    apply Route.variableValue_of_splitRun hlookup hsplit
    rintro rfl
    rfl
  rw [hvars, Route.valuesFrom, if_neg (by omega), hfound, hvalue]
  rfl

end RoutePattern.IsRun

/-! ### Paths of a run -/

theorem dropLeading_append {t : Text} (h : t.head? ≠ some '/') (hne : t ≠ []) (y : Text) :
    Text.dropLeading '/' (t ++ y) = t ++ y := by
  obtain ⟨c, t, rfl⟩ := List.exists_cons_of_ne_nil hne
  exact dropLeading_of_head_ne (t := c :: t ++ y) h

namespace Route

variable {r : Route} {literal name capture : Text} {e : Regex}

/-- The path of a route for some items. -/
theorem path_run (hliteral : literal.head? ≠ some '/') (hne : literal ≠ [])
    (hr : r.pattern.IsRun literal name capture e) {items : List Text}
    (hitems : ∀ t ∈ items, coded t ∈ takenBy capture) :
    r.path ⟨[(name, .list (items.map .str))]⟩ = .ok ('/' :: (literal ++ runText (items.map coded))) := by
  have hget := Mapping.get?_putAll_singleton r.defaults name (.list (items.map .str))
  have htext : r.text ⟨[(name, .list (items.map .str))]⟩ = .ok (literal ++ runText (items.map coded)) := by
    rw [Route.text, hr.tokens, literalRun, PathFor.write, List.nil_append]
    exact (PathFor.write_run _ hitems hget (Or.inr rfl) false literal []).trans (by rw [PathFor.write])
  have hempty : (literal ++ runText (items.map coded)).isEmpty = false := by simp [hne]
  rw [Route.path, htext, Except.map]
  simp only [dropLeading_append hliteral hne, hempty, Bool.false_eq_true, if_false]

/-- A list stands for itself among the parameters, unless it is empty and there is a default. -/
theorem get?_mergeParams_list {values : List Value} (hdefaults : values = [] → r.defaults.get? name = none) :
    (r.mergeParams ⟨[(name, .list values)]⟩ .empty).get? name = some (.list values) := by
  have hget : (Mapping.mk [(name, Value.list values)]).get? name = some (.list values) := by simp [Mapping.get?_mk_cons]
  have hkeys : (Mapping.mk [(name, Value.list values)]).keys.Nodup := List.nodup_singleton name
  have hnone : (Mapping.empty : Mapping Value).keys.Nodup := List.nodup_nil
  rw [get?_mergeParams r hkeys hnone, hget, Mapping.get?_empty, Option.filter_some]
  cases values with
  | nil =>
    rw [hdefaults rfl]
    rfl
  | cons v values => rfl

end Route

namespace Branch

/-- A route without others below it, whose expression has no possessive loop, gives the values of its match. -/
theorem matchPath_leaf {r : Route} (hr : r.IsMade) (hentry : r.pattern.entry.IsRegular) {path : Text}
    {found : Regex.Cursor} (hfound : r.pattern.whole.matchWhole path = some found) {values : Mapping Value}
    (hvalues : r.values found = .ok values) :
    ((node r []).matchPath path .empty .empty).outcome = .ok (some ⟨[], r, r.mergeParams values .empty⟩) := by
  have hwhole : r.pattern.whole.IsRegular := by
    rw [hr.assigned.whole_eq]
    exact ⟨hentry, trivial, trivial⟩
  have hselect : (node r []).select path = .ok (some ⟨[], r, found⟩) := by
    apply select_leaf hr
    · exact Regex.hasPossessive_of_isRegular hentry
    · exact Regex.hasPossessive_of_isRegular hwhole
    · exact hfound
  rw [outcome_matchPath_of_select hselect]
  simp only [Option.elim, Selection.matched, hvalues, Except.map, queryParams_leaf]

/-- A route with a literal and a run gives one text for each item: what the capture takes of it at first. -/
theorem matchPath_items {literal name capture : Text} (h : IsRunPattern literal name capture) {r : Route}
    (hr : r.IsMade) {e : Regex} (hp : r.pattern.IsRun literal name capture e) {items : List Text}
    (hitems : ∀ x ∈ items, x ≠ [] ∧ x ∈ takenBy capture) (hdefaults : items = [] → r.defaults.get? name = none) :
    ∃ found, ((node r []).matchPath (literal ++ runText items) .empty .empty).outcome = .ok (some found) ∧
      found.above = [] ∧ found.route = r ∧
      found.params.get? name = some (.list (items.map fun x => .str (Text.percentDecode (firstTaken e x)))) := by
  obtain ⟨found, hfound, hcaptured⟩ := hp.captured_run h hitems
  obtain ⟨hregular, -⟩ := hp.entry_language h
  let values : List Value := items.map fun x => .str (Text.percentDecode (firstTaken e x))
  have hvalues : r.values found = .ok ⟨[(name, .list values)]⟩ := by
    rw [Route.values, hp.values_run h (fun x hx => (hitems x hx).2) hcaptured]
    rfl
  refine ⟨_, matchPath_leaf hr hregular hfound hvalues, rfl, rfl, ?_⟩
  apply Route.get?_mergeParams_list
  intro hnil
  exact hdefaults (List.map_eq_nil_iff.mp hnil)

/-- The pattern of a literal and a run is accepted, and a route with it and without others below it matches the path
that it writes for a list of texts. It gives as many texts, and of each one what the capture takes at first of its coded
form. So it gives that list if the capture takes all of each one at first. -/
theorem matchPath_run {literal name capture : Text} (h : IsRunPattern literal name capture)
    (hne : Text.dropLeading '/' literal ≠ []) :
    ∃ p e, (RoutePattern.ofText ['/'] (runPattern literal name capture)).outcome = .ok p ∧
      Regex.read capture = .ok e ∧
      ∀ (r : Route) (items : List Text), r.pattern = p → r.delimiter = ['/'] →
        (items = [] → r.defaults.get? name = none) → (∀ t ∈ items, t ≠ [] ∧ coded t ∈ takenBy capture) →
        ∃ path found, r.path ⟨[(name, .list (items.map .str))]⟩ = .ok path ∧
          ((node r []).matchPath (Text.dropLeading '/' path) .empty .empty).outcome = .ok (some found) ∧
          found.above = [] ∧ found.route = r ∧
          found.params.get? name =
            some (.list (items.map fun t => .str (Text.percentDecode (firstTaken e (coded t))))) ∧
          ((∀ t ∈ items, firstTaken e (coded t) = coded t) →
            found.params.get? name = some (.list (items.map .str))) := by
  have hstart := h.dropLeading hne
  obtain ⟨p, e, hp, hpath⟩ := hstart.exists_assigned
  have hsource : (RoutePattern.ofText ['/'] (runPattern literal name capture)).outcome = .ok p := by
    apply RoutePattern.ofText_of_assigned hp.assigned
    · rw [splitSuffix_runPattern, hpath, dropLeading_runPattern hne]
    · rw [splitSuffix_runPattern, hp.queryNames]
  refine ⟨p, e, hsource, hp.item, ?_⟩
  rintro r items rfl hdelimiter hdefaults hitems
  have hmade : r.IsMade := ⟨_, hdelimiter ▸ hsource⟩
  have hhead := head?_dropLeading_ne literal
  -- the path is written, and without its slash it is the literal and the run of the coded items
  have hwritten := Route.path_run hhead hne hp fun t ht => (hitems t ht).2
  have hdrop : Text.dropLeading '/' ('/' :: (Text.dropLeading '/' literal ++ runText (items.map coded))) =
      Text.dropLeading '/' literal ++ runText (items.map coded) := by
    rw [Text.dropLeading, List.dropWhile_cons_of_pos (by rfl)]
    exact dropLeading_append hhead hne _
  have hcoded : ∀ x ∈ items.map coded, x ≠ [] ∧ x ∈ takenBy capture := by
    rw [List.forall_mem_map]
    intro t ht
    exact ⟨(coded_mem_without (hitems t ht).1).1, (hitems t ht).2⟩
  obtain ⟨found, hfound, habove, hroute, hparams⟩ := matchPath_items hstart hmade hp hcoded
    fun hnil => hdefaults (List.map_eq_nil_iff.mp hnil)
  rw [List.map_map] at hparams
  refine ⟨_, found, hwritten, ?_, habove, hroute, hparams, fun hall => ?_⟩
  · rw [hdrop]
    exact hfound
  · rw [hparams]
    congr 2
    apply List.map_congr_left
    intro t ht
    show Value.str (Text.percentDecode (firstTaken e (coded t))) = .str t
    rw [hall t ht, percentDecode_coded]

/-- The pattern `x[/{v:\d+}]*` takes all of the digits of an item. -/
theorem digits_are_split :
    ∃ r : Route, (RoutePattern.ofText ['/'] (runPattern ['x'] ['v'] "\\d+".toList)).outcome = .ok r.pattern ∧
      ∃ path found, r.path ⟨[(['v'], .list [.str "12".toList, .str "34".toList])]⟩ = .ok path ∧
        ((node r []).matchPath (Text.dropLeading '/' path) .empty .empty).outcome = .ok (some found) ∧
        found.params.get? ['v'] = some (.list [.str "12".toList, .str "34".toList]) := by
  have hread : Regex.read "\\d+".toList =
      .ok (.seqAll [.loop (.oneOf ⟨[.category .digit false], false, false⟩) 1 none false]) := by
    cbv
  have hall : Regex.Lexeme.all "\\d+".toList = [.set [.category .digit false] false, .count 1 none .greedy] := by cbv
  have hpattern : IsRunPattern ['x'] ['v'] "\\d+".toList := by
    have hname : IsName ['v'] := ⟨List.cons_ne_nil _ _, List.forall_mem_singleton.mpr (by cbv)⟩
    exact isRunPattern_of_read (by simp [IsPlainText]) hname (by decide) hread hall (by decide) (by decide) (by cbv)
  obtain ⟨p, e, hp, he, hmatch⟩ := matchPath_run hpattern (by decide)
  rw [hread, Except.ok.injEq] at he
  subst he
  have hitems : ∀ t ∈ ["12".toList, "34".toList], t ≠ [] ∧ coded t ∈ takenBy "\\d+".toList := by
    simp only [List.forall_mem_cons]
    exact ⟨⟨by decide, _, _, hread, by cbv⟩, ⟨by decide, _, _, hread, by cbv⟩, List.forall_mem_nil _⟩
  obtain ⟨path, found, hpath, hfound, -, -, -, hexact⟩ :=
    hmatch { id := 0, delimiter := ['/'], pattern := p } _ rfl rfl (fun _ => rfl) hitems
  refine ⟨_, hp, path, found, hpath, hfound, hexact ?_⟩
  simp only [List.forall_mem_cons]
  exact ⟨by cbv, by cbv, List.forall_mem_nil _⟩

/-- The pattern `x[/{v:\d+?}]*` writes the items `12` and `34`, but reads back `1` and `3`. -/
theorem lazy_capture_cuts_items :
    IsRunPattern ['x'] ['v'] "\\d+?".toList ∧
      (∀ t ∈ ["12".toList, "34".toList], t ≠ [] ∧ coded t ∈ takenBy "\\d+?".toList) ∧
      ∃ r : Route, (RoutePattern.ofText ['/'] (runPattern ['x'] ['v'] "\\d+?".toList)).outcome = .ok r.pattern ∧
        r.delimiter = ['/'] ∧ r.defaults = .empty ∧ ∃ path found,
        r.path ⟨[(['v'], .list [.str "12".toList, .str "34".toList])]⟩ = .ok path ∧
        ((node r []).matchPath (Text.dropLeading '/' path) .empty .empty).outcome = .ok (some found) ∧
        found.params.get? ['v'] = some (.list [.str "1".toList, .str "3".toList]) := by
  have hread : Regex.read "\\d+?".toList =
      .ok (.seqAll [.loop (.oneOf ⟨[.category .digit false], false, false⟩) 1 none true]) := by
    cbv
  have hall : Regex.Lexeme.all "\\d+?".toList = [.set [.category .digit false] false, .count 1 none .reluctant] := by
    cbv
  have hpattern : IsRunPattern ['x'] ['v'] "\\d+?".toList := by
    have hname : IsName ['v'] := ⟨List.cons_ne_nil _ _, List.forall_mem_singleton.mpr (by cbv)⟩
    exact isRunPattern_of_read (by simp [IsPlainText]) hname (by decide) hread hall (by decide) (by decide) (by cbv)
  have hitems : ∀ t ∈ ["12".toList, "34".toList], t ≠ [] ∧ coded t ∈ takenBy "\\d+?".toList := by
    simp only [List.forall_mem_cons]
    exact ⟨⟨by decide, _, _, hread, by cbv⟩, ⟨by decide, _, _, hread, by cbv⟩, List.forall_mem_nil _⟩
  have hrun : (RoutePattern.ofText ['/'] (runPattern ['x'] ['v'] "\\d+?".toList)).Gives fun p =>
      Route.path { id := 0, delimiter := ['/'], pattern := p }
        ⟨[(['v'], .list [.str "12".toList, .str "34".toList])]⟩ = .ok "/x/12/34".toList ∧
      ((node { id := 0, delimiter := ['/'], pattern := p } []).matchPath "x/12/34".toList .empty .empty).Gives
        fun found => (found.bind fun m => m.params.get? ['v']) = some (.list [.str "1".toList, .str "3".toList]) := by
    cbv
  obtain ⟨p, hp, hpath, hmatch⟩ := Traced.exists_of_gives hrun
  obtain ⟨found, hfound, hvalue⟩ := Traced.exists_of_gives hmatch
  obtain ⟨m, rfl, hm⟩ := Option.bind_eq_some_iff.mp hvalue
  exact ⟨hpattern, hitems, _, hp, rfl, rfl, _, m, hpath, hfound, hm⟩

end Branch

end Routing
