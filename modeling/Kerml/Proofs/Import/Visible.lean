import Kerml.Proofs.Import.Active
import Kerml.Proofs.Lookup.Visible

/-!
# What imports may bring in

A directive leads to what is visible where it is written. The directives that a namespace hands on
are written elsewhere, so that they can bring in what is hidden from the namespace that imports
them.
-/
namespace Kerml

open Relation

/-- Whether a directive brings in its target itself. -/
def ImportShape.takesTarget (s : ImportShape) : Bool :=
  s != .recursiveExclusive

namespace Model

variable {m : Model} {n d t : ElementId} {path : List String} {directive : Import} {p : Placed}
  {i : Imported}

/-- A declaration is visible from another one if it is public or global, or if it is a member of the
other one or of something that encloses that. -/
def VisibleFrom (m : Model) (n t : ElementId) : Prop :=
  m.visibility t = .pub ∨ t ∈ m.globals ∨ ∃ o ∈ m.ownerChain n, t ∈ m.members o

theorem public_of_mem_membersFor (ht : t ∈ m.membersFor d .outsider) : m.visibility t = .pub := by
  simpa [Visibility.admits] using (List.mem_filter.1 ht).2

/-- What a declaration exposes besides itself is public. -/
theorem public_of_exposes (ht : m.Exposes d t) (hne : t ≠ d) : m.visibility t = .pub := by
  rcases ReflTransGen.cases_tail ht with rfl | ⟨c, -, hc⟩
  · exact absurd rfl hne
  · exact public_of_mem_membersFor hc

private theorem visibleFrom_of_openTo (h : m.WellFormed) (ht : m.OpenTo (some n) path t) :
    m.VisibleFrom n t := by
  rcases ht with hpublic | ⟨s, hs, o, hw, hmember⟩ | ⟨-, hglobal⟩
  · exact Or.inl hpublic
  · cases hs
    exact Or.inr (Or.inr ⟨o, h.mem_ownerChain_iff.2 hw, hmember⟩)
  · exact Or.inr (Or.inl hglobal)

/-- The target of a directive is visible from the namespace that the directive is written in. -/
theorem visibleFrom_of_importTarget? (h : m.WellFormed) (ht : m.importTarget? n directive = some t) :
    m.VisibleFrom n t :=
  visibleFrom_of_openTo h (openTo_of_lookup h (Lookup.found?_eq_some_iff.1 ht))

/-- A directive brings in what its target exposes, and the target itself only if it takes that. -/
theorem exposes_of_mem_share (h : m.WellFormed) (hi : i ∈ p.share m) :
    ∃ t, m.importTarget? p.owner p.directive = some t ∧ m.Exposes t i.element ∧
      (i.element = t → p.directive.shape.takesTarget) := by
  rw [Placed.share] at hi
  cases ht : m.importTarget? p.owner p.directive with
  | none => simp [ht] at hi
  | some t =>
    have hexposed : ∀ {e}, e ∈ m.exposed t → m.Exposes t e :=
      (h.mem_exposed_iff (contains_of_importTarget? h ht)).1
    refine ⟨t, rfl, ?_⟩
    cases hs : p.directive.shape with
    | specific =>
      simp only [ht, hs, List.mem_singleton] at hi
      rw [hi]
      exact ⟨.refl, fun _ => rfl⟩
    | wildcard =>
      simp only [ht, hs, List.mem_map, List.mem_cons] at hi
      obtain ⟨e, rfl | he, rfl⟩ := hi
      · exact ⟨.refl, fun _ => rfl⟩
      · exact ⟨.single he, fun _ => rfl⟩
    | recursive =>
      simp only [ht, hs, List.mem_map] at hi
      obtain ⟨e, he, rfl⟩ := hi
      exact ⟨hexposed he, fun _ => rfl⟩
    | recursiveExclusive =>
      simp only [ht, hs, List.mem_map, List.mem_filter, decide_eq_true_eq] at hi
      obtain ⟨e, ⟨he, hne⟩, rfl⟩ := hi
      exact ⟨hexposed he, fun het => absurd het hne⟩

/-- Besides its target, a directive brings in what is public. -/
theorem target_or_public_of_mem_share (h : m.WellFormed) (hi : i ∈ p.share m) :
    m.importTarget? p.owner p.directive = some i.element ∧ p.directive.shape.takesTarget ∨
      m.visibility i.element = .pub := by
  obtain ⟨t, ht, hexposes, htakes⟩ := exposes_of_mem_share h hi
  by_cases het : i.element = t
  · exact Or.inl ⟨het ▸ ht, htakes het⟩
  · exact Or.inr (public_of_exposes hexposes het)

/-- A directive that takes its target does bring it in. -/
theorem exists_mem_share (h : m.WellFormed) (ht : m.importTarget? p.owner p.directive = some t)
    (hs : p.directive.shape.takesTarget) : ∃ i ∈ p.share m, i.element = t := by
  have hself : t ∈ m.exposed t := (h.mem_exposed_iff (contains_of_importTarget? h ht)).2 .refl
  rw [Placed.share, ht]
  cases hshape : p.directive.shape with
  | specific => exact ⟨_, List.mem_singleton_self _, rfl⟩
  | wildcard => exact ⟨_, List.mem_map_of_mem List.mem_cons_self, rfl⟩
  | recursive => exact ⟨_, List.mem_map_of_mem hself, rfl⟩
  | recursiveExclusive => simp [hshape, ImportShape.takesTarget] at hs

theorem mem_brought_flatMap (h : m.WellFormed) {ps : List Placed} :
    i ∈ (ps.flatMap fun p => m.directiveSteps p.owner p.directive).filterMap ImportStep.brought? ↔
      ∃ p ∈ ps, i ∈ p.share m :=
  (brought_flatMap h ps).mem_iff.trans List.mem_flatMap

/-- What comes in is what some directive that takes part brings in. -/
theorem mem_imported_iff (h : m.WellFormed) :
    i ∈ m.imported n ↔ ∃ p, Active m n p ∧ i ∈ p.share m := by
  obtain ⟨handed, hrun⟩ := handedOn_runSteps m [n] (m.ownSteps n)
  have hactive : ∀ p, Active m n p ↔
      p ∈ m.directives n ∨ ∃ d ∈ handed, p ∈ m.publicDirectives d := by
    intro p
    rw [← mem_takingPart_iff h hrun, takingPart, List.mem_append, List.mem_flatMap]
  rw [imported, hrun.perm.mem_iff, List.mem_append, ownSteps_eq, mem_brought_flatMap h,
    List.mem_flatMap]
  simp only [publicImportSteps_eq, mem_brought_flatMap h, hactive]
  constructor
  · rintro (⟨p, hp, hi⟩ | ⟨d, hd, p, hp, hi⟩)
    · exact ⟨p, Or.inl hp, hi⟩
    · exact ⟨p, Or.inr ⟨d, hd, hp⟩, hi⟩
  · rintro ⟨p, hp | ⟨d, hd, hp⟩, hi⟩
    · exact Or.inl ⟨p, hp, hi⟩
    · exact Or.inr ⟨d, hd, p, hp, hi⟩

/-- Every directive of a namespace that takes part on its behalf brings in what is visible from where
the directive is written, its target and what is public. -/
theorem visibleFrom_owner_of_mem_share (h : m.WellFormed) (hi : i ∈ p.share m) :
    m.VisibleFrom p.owner i.element :=
  (target_or_public_of_mem_share h hi).elim (fun ht => visibleFrom_of_importTarget? h ht.1) Or.inl

/-- What the imports of a namespace bring in is visible from where the directive that brings it in is
written. It is all visible from the namespace itself if and only if the targets of the directives
handed on to it are. -/
theorem imported_visible (h : m.Reachable) (n : ElementId) :
    (∀ i ∈ m.imported n, ∃ p, Active m n p ∧ i ∈ p.share m ∧ m.VisibleFrom p.owner i.element) ∧
    ((∀ i ∈ m.imported n, m.VisibleFrom n i.element) ↔
      ∀ p t, Active m n p → p.owner ≠ n → p.directive.shape.takesTarget →
        m.importTarget? p.owner p.directive = some t → m.VisibleFrom n t) := by
  have hforest : m.WellFormed := h.coherent.forest
  refine ⟨fun i hi => ?_, fun hvisible p t hp _ hs ht => ?_, fun htargets i hi => ?_⟩
  · obtain ⟨p, hp, hi⟩ := (mem_imported_iff hforest).1 hi
    exact ⟨p, hp, hi, visibleFrom_owner_of_mem_share hforest hi⟩
  · obtain ⟨i, hi, rfl⟩ := exists_mem_share hforest ht hs
    exact hvisible i ((mem_imported_iff hforest).2 ⟨p, hp, hi⟩)
  · obtain ⟨p, hp, hi⟩ := (mem_imported_iff hforest).1 hi
    by_cases howner : p.owner = n
    · exact howner ▸ visibleFrom_owner_of_mem_share hforest hi
    · rcases target_or_public_of_mem_share hforest hi with ⟨ht, hs⟩ | hpublic
      · exact htargets p i.element hp howner hs ht
      · exact Or.inl hpublic

/-- A package that hands on a private member of its own, and a namespace that imports it
recursively. -/
def facade : Model :=
  performAll { library := .empty }
    [.addRoot { metaclass := .package, name := some "P" },
      .add ⟨0⟩ { metaclass := .klass, name := some "S", visibility := .priv },
      .addRoot { metaclass := .package, name := some "N" },
      .addImport ⟨0⟩ { path := ["S"], visibility := .pub },
      .addImport ⟨2⟩ { path := ["P"], shape := .recursive }]

theorem imported_visible_facade :
    facade.Reachable ∧
    ((∀ i ∈ facade.imported ⟨2⟩, ∃ p, Active facade ⟨2⟩ p ∧ i ∈ p.share facade ∧
        facade.VisibleFrom p.owner i.element) ∧
      ((∀ i ∈ facade.imported ⟨2⟩, facade.VisibleFrom ⟨2⟩ i.element) ↔
        ∀ p t, Active facade ⟨2⟩ p → p.owner ≠ ⟨2⟩ → p.directive.shape.takesTarget →
          facade.importTarget? p.owner p.directive = some t → facade.VisibleFrom ⟨2⟩ t)) ∧
    facade.imported ⟨2⟩ = [{ element := ⟨0⟩ }, { element := ⟨1⟩ }] := by
  have hreachable : facade.Reachable := (Reachable.empty .empty).performAll _
  exact ⟨hreachable, imported_visible hreachable ⟨2⟩, by cbv⟩

/-- The private member comes in and is hidden from the namespace. -/
theorem facade_hands_on_hidden :
    facade.Reachable ∧ ¬ ∀ i ∈ facade.imported ⟨2⟩, facade.VisibleFrom ⟨2⟩ i.element := by
  refine ⟨(Reachable.empty .empty).performAll _, fun hvisible => ?_⟩
  have himported : { element := ⟨1⟩ } ∈ facade.imported ⟨2⟩ := by
    have hall : facade.imported ⟨2⟩ = [{ element := ⟨0⟩ }, { element := ⟨1⟩ }] := by cbv
    simp [hall]
  have hchain : facade.ownerChain ⟨2⟩ = [⟨2⟩] := by cbv
  rcases hvisible _ himported with hpublic | hglobal | ⟨o, ho, hmember⟩
  · exact absurd hpublic (by decide +kernel)
  · exact absurd hglobal (by decide +kernel)
  · rw [hchain, List.mem_singleton] at ho
    exact absurd (ho ▸ hmember) (by decide +kernel)

end Model
end Kerml
