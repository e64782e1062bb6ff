import Routing.Proofs.Tree.Naming
import Routing.Table

/-!
# Routers of tables

A table that a document writes without a defect is valid: the dotted names of its definitions have no empty segment
(`isValid_of_ofDocument`). A router is made of a table by adding the definitions one after the other, so what holds of
the root alone and is kept by each addition holds of the tree of the router (`exists_of_addAll`). Where the table is
valid, the tree is well named (`wellNamed_of_build`).
-/

namespace Routing

namespace Checked

theorem defects_bind_eq_nil {α β : Type} {x : Checked α} {f : α → Checked β} :
    (x >>= f).defects = [] ↔ x.defects = [] ∧ (f x.value).defects = [] :=
  List.append_eq_nil_iff

theorem toExcept_eq_ok {α : Type} {x : Checked α} {a : α} :
    x.toExcept = .ok a ↔ x.defects = [] ∧ x.value = a := by
  rw [toExcept]
  cases h : x.defects <;> simp

end Checked

open Checked

namespace Definition

/-- The segments of the dotted name. -/
def address (d : Definition) : List Text := Text.splitOn '.' d.name

/-- Whether no segment of the dotted name is empty. -/
def IsNamed (d : Definition) : Prop := ∀ s ∈ d.address, s ≠ []

theorem IsNamed.isSegment {d : Definition} (h : d.IsNamed) : ∀ s ∈ d.address, IsSegment s :=
  fun s hs => ⟨h s hs, Text.not_mem_of_mem_splitOn hs⟩

theorem IsNamed.name_ne_nil {d : Definition} (h : d.IsNamed) : d.name ≠ [] := by
  intro hname
  refine h [] ?_ rfl
  rw [address, hname]
  exact List.mem_singleton.mpr rfl

theorem IsNamed.split {d : Definition} (h : d.IsNamed) : (RouteName.dotted d.name).split = .ok d.address := by
  obtain ⟨c, rest, hname⟩ := List.exists_cons_of_ne_nil h.name_ne_nil
  rw [address, hname]
  rfl

theorem isNamed_of_readName {place : List Step} {d : Document} (h : (readName place d).defects = []) :
    ∀ s ∈ Text.splitOn '.' (readName place d).value, s ≠ [] := by
  rcases d with ⟨_ | _ | _ | _ | t⟩ | _ | _
  case scalar.str =>
    cases t with
    | nil => cases h
    | cons c rest =>
      rw [readName] at h ⊢
      · split at h
        · cases h
        · next hany =>
          rw [if_neg hany]
          intro s hs hnil
          exact hany (List.any_eq_true.mpr ⟨s, hs, by rw [hnil]; rfl⟩)
      all_goals simp
  all_goals cases h

theorem isNamed_of_ofDocument {place : List Step} {d : Document} (h : (ofDocument place d).defects = []) :
    (ofDocument place d).value.IsNamed := by
  cases d with
  | map fields =>
    obtain ⟨hname, -⟩ := defects_bind_eq_nil.mp h
    show ∀ s ∈ Text.splitOn '.' (Document.readField place fields "name" _ readName).value, s ≠ []
    rw [Document.readField] at hname ⊢
    split at hname
    · exact isNamed_of_readName hname
    · cases hname
  | _ => cases h

theorem isNamed_of_ofDocuments {place : List Step} {index : Nat} {items : List Document}
    (h : (ofDocuments place index items).defects = []) : ∀ d ∈ (ofDocuments place index items).value, d.IsNamed := by
  induction items generalizing index with
  | nil => exact nofun
  | cons item items ih =>
    rw [ofDocuments] at h
    obtain ⟨hfirst, hrest⟩ := defects_bind_eq_nil.mp h
    obtain ⟨hrest, -⟩ := defects_bind_eq_nil.mp hrest
    exact List.forall_mem_cons.mpr ⟨isNamed_of_ofDocument hfirst, ih hrest⟩

theorem isNamed_of_readList {place : List Step} {d : Document} (h : (readList place d).defects = []) :
    ∀ e ∈ (readList place d).value, e.IsNamed := by
  cases d with
  | seq items => exact isNamed_of_ofDocuments h
  | _ => cases h

end Definition

namespace Table

/-- Whether all definitions of a table have names without empty segments. -/
def IsValid (t : Table) : Prop := ∀ d ∈ t.routes, d.IsNamed

/-- A table that a document writes is valid. -/
theorem isValid_of_ofDocument {d : Document} {t : Table} (h : (ofDocument d).toExcept = .ok t) : t.IsValid := by
  obtain ⟨hdefects, rfl⟩ := toExcept_eq_ok.mp h
  cases d with
  | scalar k =>
    cases k with
    | null => exact nofun
    | _ => cases hdefects
  | seq items =>
    obtain ⟨hroutes, -⟩ := defects_bind_eq_nil.mp hdefects
    exact Definition.isNamed_of_ofDocuments hroutes
  | map fields =>
    obtain ⟨-, hdefects⟩ := defects_bind_eq_nil.mp hdefects
    obtain ⟨hroutes, -⟩ := defects_bind_eq_nil.mp hdefects
    show ∀ d ∈ (Document.readField [] fields "routes" (pure []) Definition.readList).value, d.IsNamed
    rw [Document.readField] at hroutes ⊢
    cases hfield : Document.field "routes".toList fields with
    | none => exact nofun
    | some routes =>
      rw [hfield] at hroutes
      exact Definition.isNamed_of_readList hroutes

theorem build_eq_ok {t : Table} {settings : Settings} {r : Router} :
    (t.build settings).outcome = .ok r ↔ ∃ tree, (Tree.create (givenOr none settings.delimiter)).outcome = .ok tree ∧
      (addAll { settings, basePath := settings.base t.basePath, tree } t.routes).outcome = .ok r := by
  rw [build, Traced.bind_outcome_eq_ok]
  constructor
  · rintro ⟨start, hstart, h⟩
    obtain ⟨tree, htree, hstart⟩ := Traced.bind_outcome_eq_ok.mp hstart
    rw [Traced.outcome_pure, Except.ok.injEq] at hstart
    exact ⟨tree, htree, hstart ▸ h⟩
  · rintro ⟨tree, htree, h⟩
    exact ⟨_, Traced.bind_outcome_eq_ok.mpr ⟨tree, htree, rfl⟩, h⟩

theorem addAll_cons_eq_ok {r s : Router} {d : Definition} {rest : List Definition} :
    (addAll r (d :: rest)).outcome = .ok s ↔ ∃ tree, (r.tree.add (.dotted d.name) d.spec).outcome = .ok tree ∧
      (addAll { r with tree } rest).outcome = .ok s := by
  rw [addAll, Traced.bind_outcome_eq_ok]
  constructor
  · rintro ⟨grown, hgrown, h⟩
    obtain ⟨tree, htree, hgrown⟩ := Traced.bind_outcome_eq_ok.mp hgrown
    rw [Traced.outcome_pure, Except.ok.injEq] at hgrown
    exact ⟨tree, htree, hgrown ▸ h⟩
  · rintro ⟨tree, htree, h⟩
    exact ⟨_, Traced.bind_outcome_eq_ok.mpr ⟨tree, htree, rfl⟩, h⟩

/-- What holds of a tree and is kept by each addition holds of the tree with all definitions, and nothing but the tree
changes. -/
theorem exists_of_addAll {P : Tree → Prop} {r s : Router} {routes : List Definition}
    (hstep : ∀ d ∈ routes, ∀ t u : Tree, P t → (t.add (.dotted d.name) d.spec).outcome = .ok u → P u)
    (h : (addAll r routes).outcome = .ok s) (hr : P r.tree) : P s.tree ∧ s = { r with tree := s.tree } := by
  induction routes generalizing r with
  | nil =>
    rw [addAll, Traced.outcome_pure, Except.ok.injEq] at h
    rw [← h]
    exact ⟨hr, rfl⟩
  | cons d rest ih =>
    obtain ⟨hfirst, hrest⟩ := List.forall_mem_cons.mp hstep
    obtain ⟨tree, htree, h⟩ := addAll_cons_eq_ok.mp h
    obtain ⟨hs, heq⟩ := ih (r := { r with tree }) hrest h (hfirst r.tree tree hr htree)
    exact ⟨hs, heq⟩

/-- The tree of a valid table is well named. -/
theorem wellNamed_of_build {t : Table} {settings : Settings} {r : Router} (ht : t.IsValid)
    (h : (t.build settings).outcome = .ok r) : r.tree.WellNamed ∧ r.current = none := by
  obtain ⟨tree, htree, h⟩ := build_eq_ok.mp h
  have hstep : ∀ d ∈ t.routes, ∀ t u : Tree, t.WellNamed → (t.add (.dotted d.name) d.spec).outcome = .ok u →
      u.WellNamed := by
    intro d hd t' u ht' hadd
    exact ht'.add (ht d hd).split (ht d hd).isSegment hadd
  obtain ⟨hnamed, hr⟩ := exists_of_addAll hstep h (Tree.wellNamed_create htree)
  rw [hr]
  exact ⟨hnamed, rfl⟩

end Table

end Routing
