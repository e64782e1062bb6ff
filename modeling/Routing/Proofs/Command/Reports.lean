import Routing.Command
import Routing.Proofs.Table.Building

/-!
# Reports of the command

A run of the command either is stopped, and then its report has no line, or it returns, and then its report has the
lines of all that was asked for. `Returned` says what these lines are, on its own: the list, the match and the link,
each of them only where it is asked for, and where a location matches no route nothing but the status says so. The
report of a command line that asks for no information is always of one of these two kinds, and it is of the second kind
exactly if all that is asked for can be met (`report_of_read`).
-/

namespace Routing.Command

/-! ### Command lines without information -/

/-- Whether an option asks for information on the command itself. -/
def Switch.informs : Switch → Bool
  | help | version => true
  | listing | location | origin | link | param | verbosity => false

/-- Whether one of the options of a word asks for information. -/
def Word.informs : Word → Bool
  | letters switches => switches.any Switch.informs
  | option s _ => s.informs
  | plain _ | separator => false

/-- Whether no word of a command line, up to the end of the options, is an option that asks for information. -/
def AsksNoInformation (words : List Text) : Prop :=
  ∀ t ∈ words.takeWhile (· != ['-', '-']), ∀ w ∈ readWord t, w.informs = false

instance (words : List Text) : Decidable (AsksNoInformation words) :=
  inferInstanceAs (Decidable (∀ t ∈ words.takeWhile (· != ['-', '-']), ∀ w ∈ readWord t, w.informs = false))

theorem informs_of_readWords {words : List Text} {ws : List Word} (hwords : AsksNoInformation words)
    (h : readWords words = some ws) : ∀ w ∈ ws, w.informs = false := by
  have hplain : ∀ texts : List Text, ∀ w ∈ Word.separator :: texts.map Word.plain, w.informs = false := by
    intro texts w hw
    rcases List.mem_cons.mp hw with rfl | hw
    · rfl
    · obtain ⟨t, -, rfl⟩ := List.mem_map.mp hw
      rfl
  induction words generalizing ws with
  | nil =>
    cases h
    exact nofun
  | cons t rest ih =>
    obtain ⟨word, hword, h⟩ := Option.bind_eq_some_iff.mp h
    by_cases hend : word = .separator
    · subst hend
      cases h
      exact hplain rest
    · have ht : (t != ['-', '-']) = true := by
        rw [bne_iff_ne]
        rintro rfl
        exact hend (Option.some.inj hword).symm
      rw [AsksNoInformation, List.takeWhile_cons, if_pos ht, List.forall_mem_cons] at hwords
      split at h
      · exact absurd rfl hend
      · obtain ⟨others, hothers, h⟩ := Option.bind_eq_some_iff.mp h
        cases h
        exact List.forall_mem_cons.mpr ⟨hwords.1 word hword, ih hwords.2 hothers⟩

theorem informing_apply {r : Reading} {s : Switch} (h : s.informs = false) : (r.apply s).informing = r.informing := by
  cases s with
  | help => cases h
  | version => cases h
  | _ => rfl

theorem informing_applyTo (r : Reading) (argument : Text) (s : Switch) :
    (r.applyTo argument s).informing = r.informing := by
  cases s <;> rfl

theorem informing_foldl_apply {r : Reading} {switches : List Switch} (h : switches.any Switch.informs = false) :
    (switches.foldl Reading.apply r).informing = r.informing := by
  induction switches generalizing r with
  | nil => rfl
  | cons s switches ih =>
    rw [List.any_cons, Bool.or_eq_false_iff] at h
    rw [List.foldl_cons, ih h.2, informing_apply h.1]

theorem informing_setTable {r r' : Reading} {path : Text} (h : r.setTable path = some r') :
    r'.informing = r.informing := by
  rw [Reading.setTable] at h
  split at h <;> cases h
  rfl

/-- Words that ask for no information are read as a request or refused. -/
theorem informing_of_readAll {r r' : Reading} {ws : List Word} (hws : ∀ w ∈ ws, w.informs = false)
    (h : r.readAll ws = some r') : r'.informing = r.informing := by
  fun_induction Reading.readAll r ws with
  | case1 r => exact congrArg _ (Option.some.inj h).symm
  | case2 r t rest hrest => exact informing_setTable h
  | case4 r t rest hseparator ih =>
    obtain ⟨next, hnext, h⟩ := Option.bind_eq_some_iff.mp h
    rw [ih next (List.forall_mem_cons.mp hws).2 h, informing_setTable hnext]
  | case5 r t rest ih =>
    obtain ⟨next, hnext, h⟩ := Option.bind_eq_some_iff.mp h
    rw [ih next (List.forall_mem_cons.mp (List.forall_mem_cons.mp hws).2).2 h, informing_setTable hnext]
  | case7 r switches rest ih =>
    rw [List.forall_mem_cons] at hws
    rw [ih hws.2 h, informing_foldl_apply hws.1]
  | case8 r s argument rest hargument ih =>
    rw [ih (List.forall_mem_cons.mp hws).2 h, informing_applyTo]
  | case10 r s hargument t more ih =>
    rw [ih (List.forall_mem_cons.mp (List.forall_mem_cons.mp hws).2).2 h, informing_applyTo]
  | case12 r s rest hargument ih =>
    rw [List.forall_mem_cons] at hws
    rw [ih hws.2 h, informing_apply hws.1]
  | case3 | case6 | case9 | case11 => cases h

/-- A command line that asks for no information is a request, or refused. -/
theorem read_of_asksNoInformation {words : List Text} (h : AsksNoInformation words) :
    (∃ q, Invocation.read words = .run q) ∨ Invocation.read words = .refused := by
  rw [Invocation.read]
  cases hread : (readWords words).bind (Reading.readAll {}) with
  | none => exact Or.inr rfl
  | some r =>
    obtain ⟨ws, hws, hr⟩ := Option.bind_eq_some_iff.mp hread
    have hinforming : r.informing = false := informing_of_readAll (informs_of_readWords h hws) hr
    simp only [hinforming, Bool.false_eq_true, if_false]
    cases r.hasTable with
    | true => exact Or.inl ⟨r.request, rfl⟩
    | false => exact Or.inr rfl

/-! ### What a run returns -/

/-- The router that a match starts with and the parameters before it, given the location that is left, if there is
one. -/
inductive Departs (r : Router) : Option Text → Router → Mapping Value → Prop
  | nowhere : Departs r none r .empty
  | left {origin t} (h : (r.matchLocation origin).outcome = .ok (some t)) :
    Departs r (some origin) (r.commit t) t.params

/-- What a router answers to a request for a match, and the router after it. -/
inductive Answers (r : Router) (q : Request) : Router → Report → Prop
  | unasked (h : wanted q.location = none) : Answers r q r {}
  | unmatched {location there before} (h : wanted q.location = some location)
    (hdeparts : Departs r (wanted q.origin) there before) (hmatch : (there.matchLocation location).outcome = .ok none) :
    Answers r q there { complaints := [.unmatched location], status := 2 }
  | matched {location there before t params left entered} (h : wanted q.location = some location)
    (hdeparts : Departs r (wanted q.origin) there before)
    (hmatch : (there.matchLocation location).outcome = .ok (some t)) (hparams : shownParams t.params = .ok params)
    (hleft : (t.disabled there.settings before).outcome = .ok left)
    (hentered : (t.enabled there.settings before).outcome = .ok entered) :
    Answers r q there { lines := [
      "route:    ".toList ++ lineageName t.target,
      "params:   ".toList ++ params,
      "disabled: ".toList ++ shownNames left,
      "enabled:  ".toList ++ shownNames entered] }

/-- The line of the link that a request asks for. -/
inductive Links (r : Router) (q : Request) : List Text → Prop
  | unasked (h : wanted q.link = none) : Links r q []
  | linked {name params line} (h : wanted q.link = some name) (hparams : Query.ofArguments q.params = .ok params)
    (hline : r.link (.dotted name) params none {} = .ok line) : Links r q [line]

/-- The report of a router on a request: the list of the routes, the answer to the request for a match, and the link
from where this leads to. -/
def Resolves (r : Router) (q : Request) (report : Report) : Prop :=
  ∃ there answer link, Answers r q there answer ∧ Links there q link ∧
    report = { answer with lines := (if q.listing then listing r else []) ++ answer.lines ++ link }

/-- The report that a run returns, given the text of the file with the table, if there is one. -/
def Returned (settings : Settings) (q : Request) (content : Option Text) (report : Report) : Prop :=
  ∃ t table r, content = some t ∧ Table.ofText t = .ok table ∧ (table.build settings).outcome = .ok r ∧
    Resolves r q report

variable {r there : Router} {q : Request} {report answer : Report}

theorem stopped_of_returned {settings : Settings} {content : Option Text} (h : Returned settings q content report) :
    report.stopped = false := by
  obtain ⟨t, table, r, -, -, -, there, answer, link, hanswer, -, rfl⟩ := h
  cases hanswer <;> rfl

/-! ### Requests -/

theorem eq_stop_of_stopAt {before : List Complaint} {complain : RouteError → Complaint} {e : RouteError}
    (h : (stopAt before complain e).outcome = .ok report) : report = .stop before (complain e) := by
  rw [stopAt] at h
  split at h
  · exact (Except.ok.inj h).symm
  · cases h

theorem linkLine_eq_ok {name line : Text} {arguments : List Text} :
    linkLine r name arguments = .ok line ↔
      ∃ params, Query.ofArguments arguments = .ok params ∧ r.link (.dotted name) params none {} = .ok line :=
  Pattern.bind_eq_ok

theorem addLink_of_links {link : List Text} (h : Links r q link) (report : Report) :
    (addLink r q report).outcome = .ok { report with lines := report.lines ++ link } := by
  cases h with
  | unasked h => simp [addLink, h]
  | linked h hparams hline => simp [addLink, h, linkLine_eq_ok.mpr ⟨_, hparams, hline⟩]

/-- A link that cannot be written stops the run, whatever it has found before. -/
theorem links_or_stop {final : Report} (h : (addLink r q report).outcome = .ok final) :
    (∃ link, Links r q link ∧ final = { report with lines := report.lines ++ link }) ∨
      ∃ before c, final = .stop before c := by
  rw [addLink] at h
  split at h
  · next hwanted =>
    cases h
    exact Or.inl ⟨[], .unasked hwanted, by simp⟩
  · next hwanted =>
    split at h
    · next line hline =>
      cases h
      obtain ⟨params, hparams, hline⟩ := linkLine_eq_ok.mp hline
      exact Or.inl ⟨[line], .linked hwanted hparams hline, rfl⟩
    · exact Or.inr ⟨_, _, eq_stop_of_stopAt h⟩

theorem depart_eq_ok {origin : Option Text} :
    (depart r origin).outcome = .ok there ↔ ∃ before, Departs r origin there before := by
  cases origin with
  | none =>
    rw [depart, Traced.outcome_pure, Except.ok.injEq]
    constructor
    · rintro rfl
      exact ⟨_, .nowhere⟩
    · rintro ⟨before, ⟨⟩⟩
      rfl
  | some origin =>
    rw [depart, Traced.bind_outcome_eq_ok]
    constructor
    · rintro ⟨_ | t, hmatch, h⟩
      · cases h
      · cases h
        exact ⟨_, .left hmatch⟩
    · rintro ⟨before, ⟨⟩ | ⟨h⟩⟩
      exact ⟨_, h, rfl⟩

theorem Departs.before_eq (hr : r.currentParams = .empty) {origin : Option Text} {before : Mapping Value}
    (h : Departs r origin there before) : there.currentParams = before := by
  cases h with
  | nowhere => exact hr
  | left h => rfl

theorem describe_eq_ok {settings : Settings} {t : Transition} {before : Mapping Value} {lines : List Text} :
    (describe settings t before).outcome = .ok lines ↔
      ∃ params left entered, shownParams t.params = .ok params ∧ (t.disabled settings before).outcome = .ok left ∧
        (t.enabled settings before).outcome = .ok entered ∧ lines = [
          "route:    ".toList ++ lineageName t.target,
          "params:   ".toList ++ params,
          "disabled: ".toList ++ shownNames left,
          "enabled:  ".toList ++ shownNames entered] := by
  simp only [describe, Traced.bind_outcome_eq_ok, Traced.outcome_pure, Except.ok.injEq]
  constructor
  · rintro ⟨params, hparams, left, hleft, entered, hentered, rfl⟩
    exact ⟨params, left, entered, hparams, hleft, hentered, rfl⟩
  · rintro ⟨params, left, entered, hparams, hleft, hentered, rfl⟩
    exact ⟨params, hparams, left, hleft, entered, hentered, rfl⟩

/-- What a request for a match is answered with, given what the router finds. -/
def answerTo (location : Text) : Option (List Text) → Report
  | some lines => { lines }
  | none => { complaints := [.unmatched location], status := 2 }

/-- The answer to a request for a match is that to what the router finds. -/
theorem answers_iff (hr : r.currentParams = .empty) {location : Text} (hwanted : wanted q.location = some location) :
    Answers r q there answer ↔
      ∃ found, (arrive r (wanted q.origin) location).outcome = .ok (there, found) ∧
        answer = answerTo location found := by
  constructor
  · intro h
    cases h with
    | unasked h =>
      rw [hwanted] at h
      cases h
    | unmatched h hdeparts hmatch =>
      obtain rfl := Option.some.inj (hwanted.symm.trans h)
      refine ⟨none, ?_, rfl⟩
      rw [arrive, Traced.bind_outcome_eq_ok]
      exact ⟨there, depart_eq_ok.mpr ⟨_, hdeparts⟩, Traced.bind_outcome_eq_ok.mpr ⟨none, hmatch, rfl⟩⟩
    | matched h hdeparts hmatch hparams hleft hentered =>
      obtain rfl := Option.some.inj (hwanted.symm.trans h)
      rw [← hdeparts.before_eq hr] at hleft hentered
      have hlines := describe_eq_ok.mpr ⟨_, _, _, hparams, hleft, hentered, rfl⟩
      refine ⟨some _, ?_, rfl⟩
      rw [arrive, Traced.bind_outcome_eq_ok]
      refine ⟨there, depart_eq_ok.mpr ⟨_, hdeparts⟩, Traced.bind_outcome_eq_ok.mpr ⟨some _, hmatch, ?_⟩⟩
      exact Traced.bind_outcome_eq_ok.mpr ⟨_, hlines, rfl⟩
  · rintro ⟨found, h, rfl⟩
    obtain ⟨departed, hdepart, h⟩ := Traced.bind_outcome_eq_ok.mp h
    obtain ⟨before, hdeparts⟩ := depart_eq_ok.mp hdepart
    obtain ⟨_ | t, hmatch, h⟩ := Traced.bind_outcome_eq_ok.mp h
    · cases h
      exact .unmatched hwanted hdeparts hmatch
    · obtain ⟨lines, hlines, h⟩ := Traced.bind_outcome_eq_ok.mp h
      cases h
      rw [hdeparts.before_eq hr] at hlines
      obtain ⟨params, left, entered, hparams, hleft, hentered, rfl⟩ := describe_eq_ok.mp hlines
      exact .matched hwanted hdeparts hmatch hparams hleft hentered

/-! ### Runs -/

/-- After the list and the match only the link is left to do. -/
theorem outcome_resolve_of_answers (hr : r.currentParams = .empty) (h : Answers r q there answer) :
    (resolve r q).outcome =
      (addLink there q { answer with lines := (if q.listing then listing r else []) ++ answer.lines }).outcome := by
  rw [resolve]
  cases hwanted : wanted q.location with
  | none =>
    cases h with
    | unasked => simp
    | unmatched h => simp [hwanted] at h
    | matched h => simp [hwanted] at h
  | some location =>
    obtain ⟨found, harrive, rfl⟩ := (answers_iff hr hwanted).mp h
    simp only
    rw [Traced.outcome_caught_bind, harrive]
    cases found with
    | none => simp [answerTo]
    | some lines => rfl

theorem resolve_of_resolves (hr : r.currentParams = .empty) (h : Resolves r q report) :
    (resolve r q).outcome = .ok report := by
  obtain ⟨there, answer, link, hanswer, hlinks, rfl⟩ := h
  rw [outcome_resolve_of_answers hr hanswer, addLink_of_links hlinks]

/-- A router gives the whole report on a request, or one that is stopped. -/
theorem resolves_or_stop (hr : r.currentParams = .empty) (h : (resolve r q).outcome = .ok report) :
    Resolves r q report ∨ ∃ before c, report = .stop before c := by
  have hlink : ∀ {there answer}, Answers r q there answer →
      Resolves r q report ∨ ∃ before c, report = .stop before c := by
    intro there answer hanswer
    rw [outcome_resolve_of_answers hr hanswer] at h
    refine (links_or_stop h).imp_left ?_
    rintro ⟨link, hlinks, rfl⟩
    exact ⟨there, answer, link, hanswer, hlinks, rfl⟩
  cases hwanted : wanted q.location with
  | none => exact hlink (.unasked hwanted)
  | some location =>
    cases harrive : (arrive r (wanted q.origin) location).outcome with
    | error e =>
      rw [resolve, hwanted] at h
      simp only at h
      rw [Traced.outcome_caught_bind, harrive] at h
      exact Or.inr ⟨_, _, eq_stop_of_stopAt h⟩
    | ok arrived => exact hlink ((answers_iff hr hwanted).mpr ⟨arrived.2, harrive, rfl⟩)

theorem currentParams_of_build {table : Table} {settings : Settings} (h : (table.build settings).outcome = .ok r) :
    r.currentParams = .empty := by
  obtain ⟨tree, -, h⟩ := Table.build_eq_ok.mp h
  rw [(Table.exists_of_addAll (P := fun _ => True) (fun _ _ _ _ _ _ => trivial) h trivial).2]

theorem outcome_run_of_build {settings : Settings} {t : Text} {table : Table} (htable : Table.ofText t = .ok table)
    (hbuild : (table.build settings).outcome = .ok r) (q : Request) :
    (run settings q (some t)).outcome = (resolve r q).outcome := by
  simp only [run, Traced.outcome_note_bind, htable, Traced.outcome_caught_bind, hbuild]

theorem run_of_returned {settings : Settings} {content : Option Text} (h : Returned settings q content report) :
    (run settings q content).outcome = .ok report := by
  obtain ⟨t, table, r, rfl, htable, hbuild, hresolves⟩ := h
  rw [outcome_run_of_build htable hbuild, resolve_of_resolves (currentParams_of_build hbuild) hresolves]

/-- A run gives the whole report on a request, or one that is stopped. -/
theorem returned_or_stop {settings : Settings} {content : Option Text}
    (h : (run settings q content).outcome = .ok report) :
    Returned settings q content report ∨ ∃ before c, report = .stop before c := by
  cases content with
  | none =>
    cases h
    exact Or.inr ⟨_, _, rfl⟩
  | some t =>
    simp only [run, Traced.outcome_note_bind] at h
    split at h
    · cases h
    · cases h
      exact Or.inr ⟨_, _, rfl⟩
    · next table htable =>
      rw [Traced.outcome_note_bind, Traced.outcome_caught_bind] at h
      cases hbuild : (table.build settings).outcome with
      | error e =>
        rw [hbuild] at h
        exact Or.inr ⟨_, _, eq_stop_of_stopAt h⟩
      | ok r =>
        rw [hbuild] at h
        simp only [Traced.outcome_note_bind] at h
        refine (resolves_or_stop (currentParams_of_build hbuild) h).imp_left ?_
        exact fun hresolves => ⟨t, table, r, rfl, htable, hbuild, hresolves⟩

end Routing.Command
