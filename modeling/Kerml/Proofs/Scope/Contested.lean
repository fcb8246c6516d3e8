import Kerml.Proofs.Scope.Redefinition

/-!
# Features with several redefiners at one distance

They are reported, and no redefinition at that distance hides them. A redefinition that is the
only one at another distance hides them all the same.
-/
namespace Kerml.Model

variable {m : Model} {v : Viewpoint} {d g first r : ElementId} {others : List ElementId} {k : Nat}

/-- All redefiners of a feature at one distance are reported, except for the first one. -/
theorem redefinedTwice_mem_diagnostics (h : Coherent m) (hd : m.contains d)
    (hredefiners : m.redefinersAt v d k g = first :: others) (hr : r ∈ others) :
    m.redefinedTwice g first r ∈ (m.scope v d).diagnostics := by
  have hseveral : 2 ≤ (m.redefinersAt v d k g).length := by
    have hpos := List.length_pos_of_mem hr
    rw [hredefiners, List.length_cons]
    omega
  have hclash : m.redefinedTwice g first r ∈ m.clashes g (m.redefinersAt v d k g) := by
    rw [hredefiners]
    exact List.mem_map_of_mem hr
  rw [diagnostics_scope h hd]
  exact List.mem_flatMap.2 ⟨(k, g), (mem_contested_iff h).2 hseveral, hclash⟩

/-- A feature that several declarations redefine at one distance is reported, once for each of them
after the first. Its entry is left out if and only if a single declaration redefines it at another
distance. -/
theorem contested_hidden_iff (h : m.Reachable) (hd : m.contains d)
    (hg : 2 ≤ (m.redefinersAt v d k g).length) :
    (∃ first others, m.redefinersAt v d k g = first :: others ∧ others ≠ [] ∧
      ∀ r ∈ others, m.redefinedTwice g first r ∈ (m.scope v d).diagnostics) ∧
    ∀ e ∈ m.unhiddenEntries v d, e.element = g →
      (e ∉ (m.scope v d).entries ↔ ∃ j, j ≠ k ∧ ∃ r, m.redefinersAt v d j g = [r]) := by
  have hcoherent : Coherent m := h.coherent
  constructor
  · obtain ⟨first, others, hredefiners⟩ :=
      List.exists_cons_of_length_pos (Nat.lt_of_lt_of_le Nat.zero_lt_two hg)
    refine ⟨first, others, hredefiners, fun hnone => ?_, fun r hr => ?_⟩
    · simp [hredefiners, hnone] at hg
    · exact redefinedTwice_mem_diagnostics hcoherent hd hredefiners hr
  · rintro e he rfl
    rw [mem_entries_scope_iff hcoherent hd, and_iff_right he, not_forall_not]
    simp only [← List.length_eq_one_iff]
    constructor
    · rintro ⟨j, hone⟩
      refine ⟨j, fun hjk => ?_, hone⟩
      rw [hjk] at hone
      omega
    · rintro ⟨j, -, hone⟩
      exact ⟨j, hone⟩

/-- A class whose two features redefine the same feature of a supertype. A single feature of the
supertype in between redefines it as well. -/
def doubleRedefinition : Model :=
  performAll { library := .empty }
    [.addRoot { metaclass := .klass, name := some "A" },
      .add ⟨0⟩ { metaclass := .feature, name := some "x" },
      .addRoot { metaclass := .klass, name := some "B" },
      .add ⟨2⟩ { metaclass := .feature, name := some "y" },
      .addRoot { metaclass := .klass, name := some "C" },
      .add ⟨4⟩ { metaclass := .feature, name := some "p" },
      .add ⟨4⟩ { metaclass := .feature, name := some "q" },
      .request ⟨2⟩ { target := .element ⟨0⟩, kind := .subclassification },
      .request ⟨4⟩ { target := .element ⟨2⟩, kind := .subclassification },
      .request ⟨3⟩ { target := .element ⟨1⟩, kind := .redefinition },
      .request ⟨5⟩ { target := .element ⟨1⟩, kind := .redefinition },
      .request ⟨6⟩ { target := .element ⟨1⟩, kind := .redefinition },
      .link]

theorem redefinersAt_doubleRedefinition :
    doubleRedefinition.redefinersAt .inside ⟨4⟩ 0 ⟨1⟩ = [⟨5⟩, ⟨6⟩] ∧
    doubleRedefinition.redefinersAt .inside ⟨4⟩ 1 ⟨1⟩ = [⟨3⟩] := by
  have hcoherent : Coherent doubleRedefinition :=
    ((Reachable.empty .empty).performAll _).coherent
  have hmade : doubleRedefinition.redefinitions .inside ⟨4⟩ =
      [⟨0, ⟨5⟩, ⟨1⟩⟩, ⟨0, ⟨6⟩, ⟨1⟩⟩, ⟨1, ⟨3⟩, ⟨1⟩⟩] := by cbv
  rw [← distinct_selected hcoherent, ← distinct_selected hcoherent, hmade]
  exact ⟨by decide, by decide⟩

theorem contested_hidden_iff_doubleRedefinition :
    doubleRedefinition.Reachable ∧ doubleRedefinition.contains ⟨4⟩ ∧
    2 ≤ (doubleRedefinition.redefinersAt .inside ⟨4⟩ 0 ⟨1⟩).length ∧
    ∀ e ∈ doubleRedefinition.unhiddenEntries .inside ⟨4⟩, e.element = ⟨1⟩ →
      (e ∉ (doubleRedefinition.scope .inside ⟨4⟩).entries ↔
        ∃ j, j ≠ 0 ∧ ∃ r, doubleRedefinition.redefinersAt .inside ⟨4⟩ j ⟨1⟩ = [r]) := by
  have hreachable : doubleRedefinition.Reachable := (Reachable.empty .empty).performAll _
  have hknown : doubleRedefinition.contains ⟨4⟩ := by decide +kernel
  have hseveral : 2 ≤ (doubleRedefinition.redefinersAt .inside ⟨4⟩ 0 ⟨1⟩).length := by
    rw [redefinersAt_doubleRedefinition.1]
    exact Nat.le_refl 2
  exact ⟨hreachable, hknown, hseveral, (contested_hidden_iff hreachable hknown hseveral).2⟩

/-- The feature is reported and hidden. -/
theorem doubleRedefinition_hides_contested :
    doubleRedefinition.Reachable ∧
    2 ≤ (doubleRedefinition.redefinersAt .inside ⟨4⟩ 0 ⟨1⟩).length ∧
    doubleRedefinition.redefinedTwice ⟨1⟩ ⟨5⟩ ⟨6⟩ ∈
      (doubleRedefinition.scope .inside ⟨4⟩).diagnostics ∧
    ⟨1⟩ ∈ (doubleRedefinition.unhiddenEntries .inside ⟨4⟩).map (·.element) ∧
    ⟨1⟩ ∉ (doubleRedefinition.scope .inside ⟨4⟩).elements := by
  have hreachable : doubleRedefinition.Reachable := (Reachable.empty .empty).performAll _
  have hknown : doubleRedefinition.contains ⟨4⟩ := by decide +kernel
  have hlisted : (doubleRedefinition.unhiddenEntries .inside ⟨4⟩).map (·.element) =
      [⟨5⟩, ⟨6⟩, ⟨4⟩, ⟨2⟩, ⟨3⟩, ⟨0⟩, ⟨1⟩] := by cbv
  obtain ⟨hnear, hfar⟩ := redefinersAt_doubleRedefinition
  refine ⟨hreachable, ?_, ?_, ?_, ?_⟩
  · rw [hnear]
    exact Nat.le_refl 2
  · exact redefinedTwice_mem_diagnostics hreachable.coherent hknown hnear
      (List.mem_singleton_self _)
  · rw [hlisted]
    decide
  · rw [mem_elements_scope_iff hreachable.coherent hknown]
    rintro ⟨-, hkept⟩
    exact hkept 1 (by rw [hfar]; rfl)

end Kerml.Model
