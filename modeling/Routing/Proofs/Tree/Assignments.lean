import Routing.Proofs.Router.Search
import Routing.Proofs.Tree.Edges
import Routing.Proofs.Tree.Pruning

/-!
# Trees with patterns that are assigned again

A route is made from the path that its parent has when it is added. Assigning a pattern changes that one route and none
below it. So a route continues its parent as long as no pattern was assigned to it and the parent has the path from
then (`continues_of_settled`), and where this is so all the way down to a route, the routes above let every path
through that the route matches (`path_of_settled`). After an assignment to the parent it may be otherwise
(`assigned_parent_hides_child`).
-/

namespace Routing

open Pattern

/-- What is done to a tree: a route is added below a parent with some path, or a pattern is assigned to a route. -/
inductive Event where
  | added (id : Nat) (parentPath : Text)
  | assigned (id : Nat)

/-- A change further down is one of a branch whose route is among those of the whole. -/
theorem Branch.exists_of_changeAt {α : Type} {change : Branch → Traced (Branch × α)} {b c : Branch} {a : α}
    {names : List Text} (h : (changeAt change b names).outcome = .ok (c, a)) :
    ∃ inner changed, inner.route ∈ b.routes ∧ (change inner).outcome = .ok (changed, a) := by
  induction names generalizing b c with
  | nil =>
    rw [changeAt] at h
    exact ⟨b, c, mem_routes_iff.mpr (Or.inl rfl), h⟩
  | cons segment rest ih =>
    obtain ⟨child, changed, hchild, hchanged, rfl⟩ := changeAt_cons_eq_ok h
    obtain ⟨inner, changed, hinner, hchange⟩ := ih hchanged
    refine ⟨inner, changed, ?_, hchange⟩
    rw [routes_eq b]
    exact List.mem_cons_of_mem _ (routes_subset_of_mem (mem_of_named hchild) hinner)

namespace Tree

/-- The tree with the pattern of a route assigned, that route, and the error that ended the assignment, if one did. -/
def assign (t : Tree) (start : List Text) (source : Text) : Traced (Tree × Route × Option RouteError) :=
  t.change start fun r => do
    let (pattern, failure) ← r.pattern.assign r.delimiter source
    return ({ r with pattern }, { r with pattern }, failure)

/-- An assignment to a route changes that route only. -/
theorem assign_eq_ok {t u : Tree} {start : List Text} {source : Text} {changed : Route} {failure : Option RouteError}
    (h : (t.assign start source).outcome = .ok (u, changed, failure)) : u.next = t.next ∧
      (∃ r ∈ t.root.routes, (r.pattern.assign r.delimiter source).outcome = .ok (changed.pattern, failure) ∧
        changed = { r with pattern := changed.pattern }) ∧
      ∀ s ∈ u.root.routes, s = changed ∨ s ∈ t.root.routes := by
  obtain ⟨⟨root, a⟩, hroot, h⟩ := Traced.bind_outcome_eq_ok.mp h
  rw [Traced.outcome_pure, Except.ok.injEq, Prod.mk.injEq] at h
  obtain ⟨rfl, rfl⟩ := h
  -- what is done to one branch
  have hone : ∀ b c : Branch, (do
      let (route, a) ← (do
        let (pattern, failure) ← b.route.pattern.assign b.route.delimiter source
        return ({ b.route with pattern }, { b.route with pattern }, failure) : Traced (Route × Route × Option RouteError))
      return (Branch.node route b.children, a) : Traced (Branch × Route × Option RouteError)).outcome =
        .ok (c, changed, failure) → c = .node changed b.children ∧
      (b.route.pattern.assign b.route.delimiter source).outcome = .ok (changed.pattern, failure) ∧
      changed = { b.route with pattern := changed.pattern } := by
    intro b c hb
    obtain ⟨⟨route, a⟩, hroute, hb⟩ := Traced.bind_outcome_eq_ok.mp hb
    obtain ⟨⟨pattern, failure'⟩, hpattern, hroute⟩ := Traced.bind_outcome_eq_ok.mp hroute
    rw [Traced.outcome_pure, Except.ok.injEq, Prod.mk.injEq] at hb hroute
    obtain ⟨rfl, rfl⟩ := hroute
    obtain ⟨rfl, heq⟩ := hb
    obtain ⟨rfl, rfl⟩ := Prod.mk.inj heq
    exact ⟨rfl, hpattern, rfl⟩
  obtain ⟨inner, c, hinner, hchange⟩ := Branch.exists_of_changeAt hroot
  refine ⟨rfl, ⟨inner.route, hinner, (hone inner c hchange).2⟩, ?_⟩
  refine Branch.forall_of_changeAt (fun b c hchange hb => ?_) hroot fun s hs => Or.inr hs
  rw [(hone b c hchange).1]
  exact Branch.forall_routes.mpr ⟨Or.inl rfl, (Branch.forall_routes.mp hb).2⟩

end Tree

/-- The session does to its tree what it does to a route of it. -/
theorem Session.assign_of_setPattern {s s' : Session} {start : List Text} {source : Text} {failure : Option RouteError}
    (h : (s.setPattern start source).outcome = .ok (s', failure)) :
    ∃ changed, (s.router.tree.assign start source).outcome = .ok (s'.router.tree, changed, failure) := by
  obtain ⟨⟨tree, changed, a⟩, htree, h⟩ := Traced.bind_outcome_eq_ok.mp h
  rw [Traced.outcome_pure, Except.ok.injEq, Prod.mk.injEq] at h
  obtain ⟨rfl, rfl⟩ := h
  refine ⟨changed, ?_⟩
  rw [Tree.assign, ← htree]
  congr 2
  funext r
  dsimp only
  generalize r.pattern.assign r.delimiter source = assigned
  obtain ⟨notes, _ | ⟨pattern, failure⟩⟩ := assigned <;> simp [bind, pure]

/-- The trees that a root becomes when routes are added and patterns are assigned without an error, with what was done. -/
inductive Runs (delimiter : Text) : List Event → Tree → Prop
  | create {t} (h : (Tree.create delimiter).outcome = .ok t) : Runs delimiter [] t
  | add {log t u name spec parent r} (ht : Runs delimiter log t) (h : (t.add name spec).outcome = .ok u)
    (hadds : t.Adds spec parent r u) : Runs delimiter (log ++ [.added r.id parent.pattern.path]) u
  | addBelow {log t u start name spec parent r} (ht : Runs delimiter log t)
    (h : (t.addBelow start name spec).outcome = .ok u) (hadds : t.Adds spec parent r u) :
    Runs delimiter (log ++ [.added r.id parent.pattern.path]) u
  | assign {log t u start source changed} (ht : Runs delimiter log t)
    (h : (t.assign start source).outcome = .ok (u, changed, none)) : Runs delimiter (log ++ [.assigned changed.id]) u

/-- Whether no pattern was assigned to a route since it was added below a parent with the path that the parent has. -/
def Settled (log : List Event) (parent r : Route) : Prop :=
  ∃ before after, log = before ++ .added r.id parent.pattern.path :: after ∧ .assigned r.id ∉ after

/-- Whether a route has a pattern that was written by some text, and continues the path that its parent had when it was
added, if no pattern was assigned to it since. -/
structure Route.Keeps (delimiter : Text) (log : List Event) (r : Route) : Prop where
  delimiter_eq : r.delimiter = delimiter
  made : r.IsMade
  continues : ∀ parent : Route, Settled log parent r → ∃ fragment,
    (RoutePattern.ofText delimiter (parent.pattern.extend fragment)).outcome = .ok r.pattern

variable {delimiter : Text} {log : List Event} {t u : Tree}

/-- What was done is done to a tree that is built. -/
theorem built_of_runs (h : Runs delimiter log t) : Built t := by
  induction h with
  | create h => exact .create h
  | add _ h _ ih => exact ih.add h
  | addBelow _ h _ ih => exact ih.addBelow h
  | assign _ h ih =>
    refine ih.change (fun r s a hs => ?_) h
    obtain ⟨⟨pattern, failure⟩, -, hs⟩ := Traced.bind_outcome_eq_ok.mp hs
    rw [Traced.outcome_pure, Except.ok.injEq, Prod.mk.injEq] at hs
    exact hs.1 ▸ ⟨rfl, rfl⟩

theorem settled_concat {e : Event} {parent r : Route} : Settled (log ++ [e]) parent r ↔
    e = .added r.id parent.pattern.path ∨ e ≠ .assigned r.id ∧ Settled log parent r := by
  constructor
  · rintro ⟨before, after, hsplit, hnot⟩
    rcases List.eq_nil_or_concat after with rfl | ⟨after, last, rfl⟩
    · exact Or.inl (List.cons.inj (List.append_inj_right' hsplit rfl)).1
    · rw [List.concat_eq_append, ← List.cons_append, ← List.append_assoc] at hsplit
      obtain ⟨rfl, hlast⟩ := List.append_inj' hsplit rfl
      obtain rfl := (List.cons.inj hlast).1
      rw [List.concat_eq_append, List.mem_append, List.mem_singleton, not_or] at hnot
      exact Or.inr ⟨Ne.symm hnot.2, before, after, rfl, hnot.1⟩
  · rintro (rfl | ⟨hne, before, after, rfl, hnot⟩)
    · exact ⟨log, [], rfl, nofun⟩
    · refine ⟨before, after ++ [e], by simp, ?_⟩
      rw [List.mem_append, List.mem_singleton, not_or]
      exact ⟨hnot, Ne.symm hne⟩

/-- Where a route is added, it continues its parent, and no other route is concerned. -/
theorem Route.Keeps.add {spec : RouteSpec} {parent r : Route} (ht : t.Numbered)
    (hlog : ∀ id path, .added id path ∈ log → id < t.next) (hadds : t.Adds spec parent r u)
    (h : ∀ s ∈ t.root.routes, s.Keeps delimiter log) :
    ∀ s ∈ u.root.routes, s.Keeps delimiter (log ++ [.added r.id parent.pattern.path]) := by
  obtain ⟨segment, hmade⟩ := hadds.gains.made
  have hid := Branch.id_of_child hmade
  intro s hs
  rcases hadds.gains.routes s hs with rfl | hs
  · obtain ⟨hdelimiter, fragment, hpattern⟩ := Branch.child_continues hmade
    have hparent := h parent hadds.gains.parent_mem
    refine ⟨hdelimiter.trans hparent.delimiter_eq, ⟨_, hdelimiter ▸ hpattern⟩, fun other hother => ⟨fragment, ?_⟩⟩
    rcases settled_concat.mp hother with heq | ⟨-, before, after, hsplit, -⟩
    · obtain ⟨-, hpath⟩ := Event.added.inj heq
      have hextend : other.pattern.extend fragment = parent.pattern.extend fragment := by
        rw [RoutePattern.extend, RoutePattern.extend, hpath]
      rw [hextend, ← hparent.delimiter_eq]
      exact hpattern
    -- the number is new, so no earlier addition has it
    · have hlt := hlog s.id other.pattern.path (by rw [hsplit]; simp)
      exact absurd hid (Nat.ne_of_lt hlt)
  · obtain ⟨hdelimiter, hmade, hcontinues⟩ := h s hs
    refine ⟨hdelimiter, hmade, fun other hother => hcontinues other ?_⟩
    rcases settled_concat.mp hother with heq | ⟨-, hsettled⟩
    · obtain ⟨heq, -⟩ := Event.added.inj heq
      exact absurd (hid.symm.trans heq) (Nat.ne_of_gt (ht.lt_next s hs))
    · exact hsettled

/-- Where a pattern is assigned to a route, no other route is concerned. -/
theorem Route.Keeps.assign {start : List Text} {source : Text} {changed : Route}
    (h : (t.assign start source).outcome = .ok (u, changed, none)) (hall : ∀ s ∈ t.root.routes, s.Keeps delimiter log) :
    ∀ s ∈ u.root.routes, s.Keeps delimiter (log ++ [.assigned changed.id]) := by
  obtain ⟨-, ⟨r, hr, hassign, hchanged⟩, hroutes⟩ := Tree.assign_eq_ok h
  have hdelimiter : changed.delimiter = r.delimiter := by rw [hchanged]
  intro s hs
  -- an assignment to a route of this number leaves nothing to show
  have hsettled : ∀ parent, Settled (log ++ [.assigned changed.id]) parent s →
      s ≠ changed ∧ Settled log parent s := by
    intro parent hparent
    rcases settled_concat.mp hparent with heq | ⟨hne, hsettled⟩
    · cases heq
    · exact ⟨fun heq => hne (by rw [heq]), hsettled⟩
  rcases hroutes s hs with rfl | hs
  · obtain ⟨hassigned, hpath, hnames⟩ := RoutePattern.assign_eq_ok hassign
    refine ⟨hdelimiter.trans (hall r hr).delimiter_eq, ⟨source, ?_⟩, fun parent hparent => ?_⟩
    · rw [hdelimiter]
      exact RoutePattern.ofText_of_assigned hassigned hpath hnames
    · exact absurd rfl (hsettled parent hparent).1
  · obtain ⟨hdelimiter, hmade, hcontinues⟩ := hall s hs
    exact ⟨hdelimiter, hmade, fun parent hparent => hcontinues parent (hsettled parent hparent).2⟩

/-- The routes that were added have numbers below the next one, and every route keeps to what was done. -/
theorem keeps_of_runs (h : Runs delimiter log t) :
    (∀ id path, .added id path ∈ log → id < t.next) ∧ ∀ r ∈ t.root.routes, r.Keeps delimiter log := by
  have hadded : ∀ {log t u spec parent r}, Runs delimiter log t → t.Adds spec parent r u →
      (∀ id path, .added id path ∈ log → id < t.next) ∧ (∀ r ∈ t.root.routes, r.Keeps delimiter log) →
      (∀ id path, .added id path ∈ log ++ [.added r.id parent.pattern.path] → id < u.next) ∧
        ∀ s ∈ u.root.routes, s.Keeps delimiter (log ++ [.added r.id parent.pattern.path]) := by
    intro log t u spec parent r ht hadds ih
    obtain ⟨segment, hmade⟩ := hadds.gains.made
    refine ⟨fun id path hmem => ?_, .add (numbered_of_built (built_of_runs ht)) ih.1 hadds ih.2⟩
    rw [hadds.next]
    rcases List.mem_append.mp hmem with hmem | hmem
    · exact Nat.lt_succ_of_lt (ih.1 id path hmem)
    · obtain ⟨rfl, -⟩ := Event.added.inj (List.mem_singleton.mp hmem)
      exact Nat.lt_succ_of_le (Nat.le_of_eq (Branch.id_of_child hmade))
  induction h with
  | create h =>
    obtain ⟨pattern, hpattern, h⟩ := Traced.bind_outcome_eq_ok.mp h
    rw [Traced.outcome_pure, Except.ok.injEq] at h
    rw [← h]
    refine ⟨nofun, Branch.forall_routes.mpr ⟨⟨rfl, ⟨_, hpattern⟩, fun parent hparent => ?_⟩, ?_⟩⟩
    · obtain ⟨before, after, hsplit, -⟩ := hparent
      exact absurd hsplit (by simp)
    · simp [Branch.children, Branch.routesOf]
  | add ht _ hadds ih => exact hadded ht hadds ih
  | addBelow ht _ hadds ih => exact hadded ht hadds ih
  | assign _ h ih =>
    refine ⟨fun id path hmem => ?_, Route.Keeps.assign h ih.2⟩
    rw [(Tree.assign_eq_ok h).1]
    exact ih.1 id path (by simpa using hmem)

/-- A route continues its parent if no pattern was assigned to it since it was added below a parent with that path. -/
theorem continues_of_settled (h : Runs delimiter log t) {parent r : Route} (hparent : parent ∈ t.root.routes)
    (hr : r ∈ t.root.routes) (hsettled : Settled log parent r) : r.Continues parent := by
  have hkeeps := (keeps_of_runs h).2 r hr
  have hsame := ((keeps_of_runs h).2 parent hparent).delimiter_eq
  exact ⟨hkeeps.delimiter_eq.trans hsame.symm, hsame ▸ hkeeps.continues parent hsettled⟩

/-- Where each route of a chain continues the one before it, all of them match a beginning of every path of which the
last one does. -/
theorem starts_of_isChain {path : Text} {chain : Lineage} (hchain : chain.IsChain fun parent r => r.Continues parent)
    (hmade : ∀ r ∈ chain, r.IsMade) (htidy : ∀ r ∈ chain, r.IsTidy)
    (hlast : ∀ r, chain.getLast? = some r → r.starts path = true) : ∀ r ∈ chain, r.starts path = true := by
  induction chain with
  | nil => simp
  | cons parent rest ih =>
    cases rest with
    | nil => simpa using hlast parent rfl
    | cons r rest =>
      obtain ⟨hcontinues, hrest⟩ := List.isChain_cons_cons.mp hchain
      rw [List.forall_mem_cons] at hmade htidy
      have hbelow := ih hrest hmade.2 htidy.2 fun s hs => hlast s (by simpa using hs)
      refine List.forall_mem_cons.mpr ⟨?_, hbelow⟩
      exact Route.starts_of_continues hmade.1 hcontinues htidy.1 (htidy.2 r List.mem_cons_self)
        (hbelow r List.mem_cons_self)

/-- In a tree to which routes were added and patterns assigned without an error, a route whose pattern was not assigned
since it was added below a parent with the path that the parent has now, which ends in no query suffix, has that path or
it with a slash and more. Where this is so of each route of a chain below the root, and the patterns are tidy, the routes
above the last one let every path through that it matches. -/
theorem path_of_settled (h : Runs delimiter log t) :
    (∀ parent r, (parent, r) ∈ t.root.edges → Settled log parent r → parent.pattern.path ≠ [] →
      (splitSuffix parent.pattern.path).2 = [] → r.pattern.path = parent.pattern.path ∨
        ∃ more, r.pattern.path = parent.pattern.path ++ '/' :: more) ∧
    ∀ p ∈ t.root.postOrder, p.lineage.IsChain (Settled log) → (∀ r ∈ p.lineage, r.IsTidy) →
      ∀ path, p.accepts path = p.route.takes path := by
  have hmade : ∀ r ∈ t.root.routes, r.IsMade := fun r hr => ((keeps_of_runs h).2 r hr).made
  refine ⟨fun parent r hedge hsettled hpath hsuffix => ?_, fun p hp hchain htidy path => ?_⟩
  · obtain ⟨hparent, hr⟩ := Branch.mem_routes_of_mem_edges hedge
    have hcontinues := continues_of_settled h hparent hr hsettled
    exact (path_of_continues hcontinues (hmade parent hparent).head_ne_slash hsuffix).resolve_left hpath
  · have hsubset : p.lineage ⊆ t.root.routes := by
      have hsubset := Branch.lineage_subset hp
      rwa [List.nil_append, Branch.routesOf, Branch.routesOf, List.append_nil] at hsubset
    rw [Place.accepts, Bool.and_eq_right_iff_imp]
    intro htakes
    have hroute : p.route ∈ p.lineage := by simp [Place.lineage]
    have hstarts := Route.starts_of_takes (hmade _ (hsubset hroute)) htakes
    refine List.all_eq_true.mpr (starts_of_isChain ?_ (fun r hr => hmade r (hsubset hr)) htidy fun r hlast => ?_)
    · refine hchain.imp_of_mem_imp fun parent r hparent hr hsettled => ?_
      exact continues_of_settled h (hsubset hparent) (hsubset hr) hsettled
    · rw [Place.lineage, List.getLast?_concat, Option.some.injEq] at hlast
      exact hlast ▸ hstarts

/-- The routes `x`, below it `x/y`, and another one that is assigned `z` afterwards: `x/y` still continues `x`, and the
routes above it let its paths through. -/
theorem child_continues_beside_assigned : ∃ log t parent r p, Runs ['/'] log t ∧ .assigned 3 ∈ log ∧
    (parent, r) ∈ t.root.edges ∧ Settled log parent r ∧ parent.pattern.path = "x".toList ∧
    (r.pattern.path = parent.pattern.path ∨ ∃ more, r.pattern.path = parent.pattern.path ++ '/' :: more) ∧
    p ∈ t.root.postOrder ∧ p.lineage.IsChain (Settled log) ∧ p.lineage.length = 3 ∧
    p.accepts "x/y".toList = p.route.takes "x/y".toList := by
  have hrun : (Tree.create ['/']).Gives fun t₀ =>
      (t₀.next = 1 ∧ t₀.root.routes.all (fun r => r.pattern.path.isEmpty) = true) ∧
      (t₀.add (.dotted "a".toList) { pattern := "x".toList }).Gives fun t₁ => t₁.next = 2 ∧
      (t₁.add (.dotted "a.b".toList) { pattern := "y".toList }).Gives fun t₂ =>
      t₂.root.edges.all (fun e => e.2.id != 2 || e.1.pattern.path == "x".toList) = true ∧
      (t₂.add (.dotted "c".toList) { pattern := "w".toList }).Gives fun t₃ =>
      (t₃.assign ["c".toList] "z".toList).Gives fun done => (done.2.2 = none ∧ done.2.1.id = 3) ∧
        done.1.root.edges.any (fun e => e.2.id == 2 && e.1.pattern.path == "x".toList) = true ∧
        done.1.root.postOrder.any (fun p => p.lineage.all Route.tidy && p.lineage.length == 3 &&
          (p.lineage[0]?.any (·.pattern.path.isEmpty) && p.lineage[2]?.any (·.id == 2) &&
            p.lineage[1]?.any fun upper => upper.id == 1 && upper.pattern.path == "x".toList)) = true := by
    cbv
  obtain ⟨t₀, h₀, ⟨hnext₀, hempty⟩, hrun⟩ := Traced.exists_of_gives hrun
  obtain ⟨t₁, h₁, hnext₁, hrun⟩ := Traced.exists_of_gives hrun
  obtain ⟨t₂, h₂, hedges, hrun⟩ := Traced.exists_of_gives hrun
  obtain ⟨t₃, h₃, hrun⟩ := Traced.exists_of_gives hrun
  obtain ⟨⟨t, changed, failure⟩, h₄, ⟨rfl, hchanged⟩, hedge, hplace⟩ := Traced.exists_of_gives hrun
  obtain ⟨p₁, r₁, hadds₁⟩ := Tree.exists_adds_of_add h₁
  obtain ⟨p₂, r₂, hadds₂⟩ := Tree.exists_adds_of_add h₂
  obtain ⟨p₃, r₃, hadds₃⟩ := Tree.exists_adds_of_add h₃
  have hnumber : ∀ {t u : Tree} {spec parent r}, t.Adds spec parent r u → r.id = t.next := fun hadds =>
    hadds.gains.made.elim fun _ => Branch.id_of_child
  have hid₁ : r₁.id = 1 := (hnumber hadds₁).trans hnext₀
  have hid₂ : r₂.id = 2 := (hnumber hadds₂).trans hnext₁
  have hid₃ : r₃.id = 3 := (hnumber hadds₃).trans (by rw [hadds₂.next, hnext₁])
  have hpath₁ : p₁.pattern.path = [] := by simpa using List.all_eq_true.mp hempty p₁ hadds₁.gains.parent_mem
  have hpath₂ : p₂.pattern.path = "x".toList := by
    simpa [hid₂] using List.all_eq_true.mp hedges _ hadds₂.gains.edge
  have hruns := ((((Runs.create h₀).add h₁ hadds₁).add h₂ hadds₂).add h₃ hadds₃).assign h₄
  rw [hid₁, hid₂, hid₃, hpath₁, hpath₂, hchanged] at hruns
  -- what was done settles the edge to `a` and the one below it
  obtain ⟨log, hruns, hassigned, hupper, hlower⟩ : ∃ log, Runs ['/'] log t ∧ .assigned 3 ∈ log ∧
      (∀ top upper : Route, top.pattern.path = [] → upper.id = 1 → Settled log top upper) ∧
      ∀ upper lower : Route, upper.pattern.path = "x".toList → lower.id = 2 → Settled log upper lower := by
    refine ⟨_, hruns, by simp, fun top upper hpath hid => ?_, fun upper lower hpath hid => ?_⟩
    · exact ⟨[], _, by rw [hpath, hid]; rfl, by rw [hid]; simp⟩
    · exact ⟨[.added 1 []], _, by rw [hpath, hid]; rfl, by rw [hid]; simp⟩
  obtain ⟨⟨parent, r⟩, hmem, he⟩ := List.any_eq_true.mp hedge
  simp only [Bool.and_eq_true, beq_iff_eq] at he
  obtain ⟨p, hp, hplace⟩ := List.any_eq_true.mp hplace
  rw [Bool.and_eq_true, Bool.and_eq_true, beq_iff_eq, List.length_eq_three] at hplace
  obtain ⟨⟨htidy, top, upper, lower, hlineage⟩, hplace⟩ := hplace
  simp only [hlineage, List.getElem?_cons_zero, List.getElem?_cons_succ, Option.any_some, Bool.and_eq_true, beq_iff_eq,
    List.isEmpty_iff] at hplace
  obtain ⟨⟨htop, hlowerid⟩, hupperid, hpath⟩ := hplace
  have hchain : p.lineage.IsChain (Settled log) := by
    rw [hlineage]
    exact .cons_cons (hupper top upper htop hupperid) (.cons_cons (hlower upper lower hpath hlowerid) (.singleton _))
  obtain ⟨hpaths, haccepts⟩ := path_of_settled hruns
  refine ⟨log, t, parent, r, p, hruns, hassigned, hmem, hlower _ _ he.2 he.1, he.2, ?_, hp, hchain,
    by rw [hlineage]; rfl, ?_⟩
  · exact hpaths parent r hmem (hlower _ _ he.2 he.1) (by rw [he.2]; decide) (by rw [he.2]; cbv)
  · exact haccepts p hp hchain (fun s hs => Route.isTidy_of_tidy (List.all_eq_true.mp htidy s hs)) _

/-- Below the route `a` with the pattern `a`, the route `a.b` is added with the pattern `x`. Then `z` is assigned to `a`.
The path that `a.b` writes is `a/x` still, its own expression matches it, but the route above does not let it through. -/
theorem assigned_parent_hides_child : ∃ log t parent r, Runs ['/'] log t ∧ (parent, r) ∈ t.root.edges ∧
    parent.id ≠ t.root.route.id ∧ parent.pattern.path ≠ [] ∧ r.pattern.path ≠ parent.pattern.path ∧
    (∀ more, r.pattern.path ≠ parent.pattern.path ++ '/' :: more) ∧
    (r.path .empty).toOption = some "/a/x".toList ∧ r.takes "a/x".toList = true ∧
    (t.root.matchPath "a/x".toList .empty .empty).outcome = .ok none := by
  have hrun : (Tree.create ['/']).Gives fun t₀ =>
      (t₀.add (.dotted "a".toList) { pattern := "a".toList }).Gives fun t₁ =>
      (t₁.add (.dotted "a.b".toList) { pattern := "/x".toList }).Gives fun t₂ =>
      (t₂.assign ["a".toList] "z".toList).Gives fun done => done.2.2 = none ∧
        done.1.root.edges.any (fun e => e.1.id != done.1.root.route.id && e.1.pattern.path == "z".toList &&
          e.2.pattern.path == "a/x".toList && (e.2.path .empty).toOption == some "/a/x".toList &&
          e.2.takes "a/x".toList) = true ∧
        (done.1.root.matchPath "a/x".toList .empty .empty).Gives (· = none) := by
    cbv
  obtain ⟨t₀, h₀, hrun⟩ := Traced.exists_of_gives hrun
  obtain ⟨t₁, h₁, hrun⟩ := Traced.exists_of_gives hrun
  obtain ⟨t₂, h₂, hrun⟩ := Traced.exists_of_gives hrun
  obtain ⟨⟨t, changed, failure⟩, h₃, rfl, hedge, hmatch⟩ := Traced.exists_of_gives hrun
  obtain ⟨_, hmatch, rfl⟩ := Traced.exists_of_gives hmatch
  obtain ⟨_, _, hadds₁⟩ := Tree.exists_adds_of_add h₁
  obtain ⟨_, _, hadds₂⟩ := Tree.exists_adds_of_add h₂
  have hruns := (((Runs.create h₀).add h₁ hadds₁).add h₂ hadds₂).assign h₃
  obtain ⟨⟨parent, r⟩, hmem, he⟩ := List.any_eq_true.mp hedge
  simp only [Bool.and_eq_true, bne_iff_ne, beq_iff_eq] at he
  obtain ⟨⟨⟨⟨htop, hparent⟩, hpath⟩, hlink⟩, htakes⟩ := he
  refine ⟨_, t, parent, r, hruns, hmem, htop, ?_, ?_, fun more => ?_, hlink, htakes, hmatch⟩
  · rw [hparent]; decide
  · rw [hparent, hpath]; decide
  · rw [hparent, hpath]; simp

end Routing
