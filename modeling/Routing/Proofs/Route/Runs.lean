import Routing.Proofs.Pattern.Acceptance
import Routing.Proofs.Pattern.Groups
import Routing.Proofs.Pattern.Splicing
import Routing.Proofs.Route.Assign

/-!
# Runs of repeated groups

A repeated group with a variable is written twice: as one capture among the expression of its rule, which takes the whole
run, and as the rule of the pattern between its brackets, which cuts the run into rounds. The two agree
(`run_takes_rounds`) where the capture means inside of the run what it means by itself. A bar outside of parentheses
does not: it ends the alternative that the text before the capture began (`bar_ends_round`).
-/

namespace Routing

open Pattern

namespace Pattern

/-- The regular expression of all rounds of a group. -/
def runRegex (suffix : Suffix) (children : List Token) : Text :=
  '(' :: (part (regexOf true children) ++ [suffix.symbol]) ++ [')']

namespace Outermost

variable {suffix : Suffix} {raw : Text} {children ts : List Token}

/-- The expression of its rounds is a part of the expression of the rule. -/
theorem infix_regexOf (h : Outermost suffix raw children ts) (hrepeats : suffix.repeats = true)
    (hnames : namesOf children ≠ []) : runRegex suffix children <:+: regexOf false ts := by
  induction h with
  | here =>
    have hrun : isRun false suffix children = true := by simp [isRun, hrepeats, hnames]
    rw [regexOf, if_pos hrun, Bool.false_or, hrepeats]
    exact (List.prefix_append _ _).isInfix
  | @under binds around inner rest _ ih =>
    refine ih.trans ?_
    have hrun : isRun false .optional inner = false := rfl
    rw [regexOf, hrun]
    exact ⟨['(', '?', ':'], [')', '?'] ++ regexOf false rest, by simp [part, Suffix.repeats, Suffix.symbol]⟩
  | @later token rest _ ih =>
    refine ih.trans ?_
    cases token <;> rw [regexOf] <;> exact (List.suffix_append _ _).isInfix

theorem mem_varsOf (h : Outermost suffix raw children ts) (hrepeats : suffix.repeats = true) {name : Text}
    (hname : name ∈ namesOf children) : ⟨name, some raw⟩ ∈ varsOf none ts := by
  induction h with
  | here =>
    rw [varsOf, within, if_pos hrepeats, Option.none_or, varsOf_some]
    exact List.mem_append_left _ (List.mem_map_of_mem hname)
  | under _ ih =>
    rw [varsOf]
    exact List.mem_append_left _ ih
  | @later token rest _ ih => cases token <;> simp [varsOf, ih]

theorem of_groupsAll {p : Suffix → Option Text → Text → List Token → Prop} (h : Outermost suffix raw children ts)
    (hall : GroupsAll p ts) : ∃ binds, p suffix binds raw children := by
  induction h with
  | here =>
    rw [GroupsAll] at hall
    exact ⟨_, hall.1⟩
  | under _ ih =>
    rw [GroupsAll] at hall
    exact ih hall.2.1
  | @later token rest _ ih =>
    refine ih ?_
    cases token <;> rw [GroupsAll] at hall
    · exact hall
    · exact hall
    · exact hall.2.2

end Outermost

/-- The rounds of a group are taken as often as its suffix allows. -/
theorem read_runRegex {suffix : Suffix} {children : List Token} (hrepeats : suffix.repeats = true)
    (hnames : namesOf children ≠ []) (hc : ∀ c ∈ capturesOf children, IsPlainCapture c)
    (hs : (∃ name c, children = [.variable name c]) ∨ Spliceable true children) :
    ∃ run, Regex.read (runRegex suffix children) = .ok run ∧ run.IsRegular ∧
      run.language = suffix.times (wordsBy takenBy children) := by
  have hspliceable : Spliceable false [.group suffix none [] children] := by
    simp only [Spliceable, hrepeats, Bool.or_true, and_true]
    exact hs
  have hrun : isRun false suffix children = true := by simp [isRun, hrepeats, hnames]
  have hdenotes := denotes_regexOf (by simpa [capturesOf] using hc) hspliceable 0
  rw [regexOf, if_pos hrun, Bool.false_or, hrepeats, regexOf, List.append_nil, groupsOf, if_pos hrun, wordsBy, wordsBy,
    mul_one] at hdenotes
  exact hdenotes.read

end Pattern

namespace RoutePattern

open scoped Computability

/-- A group that may be repeated, in no other such group and with one variable, takes the texts that are rounds of it
one after the other. A round is a text that the splitter of its variable takes. -/
theorem Assigned.run_takes_rounds {p : RoutePattern} (hp : p.Assigned ['/']) {suffix : Suffix} {raw : Text}
    {children : List Token} (hgroup : Outermost suffix raw children p.tokens.tokens) (hrepeats : suffix.repeats = true)
    {name : Text} (hname : namesOf children = [name]) (hc : ∀ c ∈ capturesOf children, IsPlainCapture c)
    (hs : (∃ c, children = [.variable name c]) ∨ Spliceable true children) :
    ∃ run rule splitter, runRegex suffix children <:+: p.rule.regex ∧ Regex.read (runRegex suffix children) = .ok run ∧
      ⟨name, some raw⟩ ∈ p.rule.vars ∧ (ruleTraced ['/'] raw).outcome = .ok rule ∧
      Regex.read rule.regex = .ok splitter ∧ p.splitters.lookup name = some splitter ∧
      ∀ s, ∃ found, sound run (run.matchWhole s) = .ok found ∧
        (found.isSome = true ↔ s ∈ suffix.times (takenBy rule.regex)) := by
  have hne : namesOf children ≠ [] := hname ▸ List.cons_ne_nil name []
  have hinfix : runRegex suffix children <:+: p.rule.regex := hp.regex_eq ▸ hgroup.infix_regexOf hrepeats hne
  have hvar : ⟨name, some raw⟩ ∈ p.rule.vars := by
    rw [hp.vars_eq]
    exact hgroup.mem_varsOf hrepeats (by simp [hname])
  obtain ⟨run, hread, hregular, hlanguage⟩ := read_runRegex hrepeats hne hc (hs.imp_left fun ⟨c, h⟩ => ⟨name, c, h⟩)
  -- the rule of the group is that of its own tokens
  obtain ⟨rule, splitter, hrule, hsplitter, hlookup⟩ := lookup_of_splittersOf hp.splitters hp.nodup_vars hvar
  obtain ⟨-, htokens⟩ := hgroup.of_groupsAll (rawTokenized_of_tokenize hp.tokens)
  obtain ⟨t, ht, hr⟩ := ruleTraced_eq_ok.mp hrule
  rw [htokens, Except.ok.injEq] at ht
  have hregex : rule.regex = regexOf false children := by
    rw [tokensRule_eq_ok hr, ← ht]
    rfl
  have hround : Spliceable false children := by
    rcases hs with ⟨c, rfl⟩ | hs
    · simp [Spliceable]
    · exact hs.outside
  obtain ⟨e, he, hrounds, hwords⟩ := (denotes_regexOf hc hround 0).read
  rw [← hregex] at he
  have htaken : takenBy rule.regex = wordsBy takenBy children := (takenBy_of_read he hrounds).trans hwords
  refine ⟨run, rule, splitter, hinfix, hread, hvar, hrule, hsplitter, hlookup, fun s => ?_⟩
  refine ⟨_, Regex.sound_matchWhole (Regex.hasPossessive_of_isRegular hregular) s, ?_⟩
  rw [htaken, ← hlanguage]
  exact Regex.accepts_iff_mem_language hregular

/-- The pattern `x[/{v:\\d+}]*`, whose capture means the same without parentheses. -/
theorem digits_are_rounds :
    ∃ p : RoutePattern, p.path = "x[/\x7bv:\\d+\x7d]*".toList ∧ ∃ run rule splitter,
      runRegex .star [.literal ['/'], .variable ['v'] "\\d+".toList] <:+: p.rule.regex ∧
      Regex.read (runRegex .star [.literal ['/'], .variable ['v'] "\\d+".toList]) = .ok run ∧
      ⟨['v'], some "/\x7bv:\\d+\x7d".toList⟩ ∈ p.rule.vars ∧
      (ruleTraced ['/'] "/\x7bv:\\d+\x7d".toList).outcome = .ok rule ∧ Regex.read rule.regex = .ok splitter ∧
      p.splitters.lookup ['v'] = some splitter ∧
      ∀ s, ∃ found, sound run (run.matchWhole s) = .ok found ∧
        (found.isSome = true ↔ s ∈ Suffix.star.times (takenBy rule.regex)) := by
  have hrun : (ofText ['/'] "x[/\x7bv:\\d+\x7d]*".toList).Gives fun p =>
      p.path = "x[/\x7bv:\\d+\x7d]*".toList ∧ p.tokens.tokens = [.literal ['x'],
        .group .star (some ['v']) "/\x7bv:\\d+\x7d".toList [.literal ['/'], .variable ['v'] "\\d+".toList]] := by
    cbv
  obtain ⟨p, hp, hpath, htokens⟩ := Traced.exists_of_gives hrun
  have hcapture : Regex.Lexeme.all "\\d+".toList = [.set [.category .digit false] false, .count 1 none .greedy] := by cbv
  have hplain : IsPlainCapture "\\d+".toList := by
    refine ⟨⟨.seqAll [.loop (.oneOf ⟨[.category .digit false], false, false⟩) 1 none false], by cbv⟩, ?_⟩
    rw [hcapture]
    decide
  refine ⟨p, hpath, (assign_eq_ok (ofText_eq_ok hp)).1.run_takes_rounds ?_ rfl rfl ?_ (Or.inr ?_)⟩
  · rw [htokens]
    exact .later .here
  · simpa [capturesOf] using hplain
  · simp only [Spliceable, regexOf, hcapture, Regex.all_nil, List.append_nil, and_true]
    exact fun _ => rfl

/-- A round of the pattern `x[/{v:a|b}]*` is `/a` or `/b`, but its run does not take both: without parentheses the bar
of the capture is one of the group. -/
theorem bar_ends_round :
    ∃ p : RoutePattern, p.Assigned ['/'] ∧ ∃ run rule,
      Outermost .star "/\x7bv:a|b\x7d".toList [.literal ['/'], .variable ['v'] "a|b".toList] p.tokens.tokens ∧
      IsPlainCapture "a|b".toList ∧
      Regex.read (runRegex .star [.literal ['/'], .variable ['v'] "a|b".toList]) = .ok run ∧
      (ruleTraced ['/'] "/\x7bv:a|b\x7d".toList).outcome = .ok rule ∧
      sound run (run.matchWhole "/a/b".toList) = .ok none ∧ "/a/b".toList ∈ Suffix.star.times (takenBy rule.regex) := by
  have hrun : (ofText ['/'] "x[/\x7bv:a|b\x7d]*".toList).Gives fun p => p.tokens.tokens = [.literal ['x'],
      .group .star (some ['v']) "/\x7bv:a|b\x7d".toList [.literal ['/'], .variable ['v'] "a|b".toList]] := by
    cbv
  obtain ⟨p, hp, htokens⟩ := Traced.exists_of_gives hrun
  let letter : Char → Regex := fun c => .oneOf (.single c false)
  have hplain : IsPlainCapture "a|b".toList := by
    have hcapture : Regex.Lexeme.all "a|b".toList = [.point 97, .bar, .point 98] := by cbv
    refine ⟨⟨.alt (.seqAll [letter 'a']) (.seqAll [letter 'b']), by cbv⟩, ?_⟩
    rw [hcapture]
    decide
  have hround : Regex.read "/(a|b)".toList =
      .ok (.seqAll [letter '/', .capture 1 (.alt (.seqAll [letter 'a']) (.seqAll [letter 'b']))]) := by
    cbv
  have hregular :
      (Regex.seqAll [letter '/', .capture 1 (.alt (.seqAll [letter 'a']) (.seqAll [letter 'b']))]).IsRegular := by
    simp [Regex.seqAll, Regex.IsRegular, letter]
  have htaken : ∀ w ∈ ["/a".toList, "/b".toList], w ∈ takenBy "/(a|b)".toList := by
    rw [takenBy_of_read hround hregular]
    simp only [List.forall_mem_cons, ← Regex.accepts_iff_mem_language hregular]
    exact ⟨by cbv, by cbv, List.forall_mem_nil _⟩
  refine ⟨p, (assign_eq_ok (ofText_eq_ok hp)).1,
    .seqAll [.capture 1 (.seqAll [.loop (.alt (.seqAll [letter '/', letter 'a']) (.seqAll [letter 'b'])) 0 none false])],
    ⟨"/(a|b)".toList, [⟨['v'], none⟩]⟩, ?_, hplain, by cbv, by cbv, by cbv, ?_⟩
  · rw [htokens]
    exact .later .here
  · exact Language.mem_kstar.mpr ⟨_, rfl, htaken⟩

end RoutePattern

end Routing
