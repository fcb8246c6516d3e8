import Kerml.Check
import Kerml.Proofs.Scope.Redefinition

/-!
# Checking a whole model

The scopes of declarations without members, imports and specializations are not computed. None of
them has a problem, so that nothing is lost, in whatever state of linking the model is.
-/
namespace Kerml

namespace Model

variable {m : Model} {v : Viewpoint} {d : ElementId} {isOwn : Bool}

private theorem not_hasContent_iff : ¬ m.hasContent d ↔
    m.members d = [] ∧ m.imports d = [] ∧ m.specializations.get d = [] := by
  simp [hasContent, and_assoc]

private theorem followed_eq_nil (h : m.specializations.get d = []) : m.followed v isOwn d = [] := by
  rw [followed, specializationsOf, h]
  rfl

private theorem scopeAncestors_eq_nil (h : m.specializations.get d = []) : m.scopeAncestors v d = [] := by
  rw [scopeAncestors, ancestors, followed_eq_nil h, inherit, ite_self]

/-- Redefinitions are made by what a declaration specializes, owns or inherits. -/
theorem redefinitions_eq_nil (hmembers : m.members d = [])
    (hgenerals : m.specializations.get d = []) : m.redefinitions v d = [] := by
  have hself : m.redefinitionsBy 0 d = [] := by
    rw [redefinitionsBy, specializationsOf, hgenerals]
    rfl
  have hown : m.redefinitionsIn 0 d = [] := by
    rw [redefinitionsIn, hmembers]
    rfl
  rw [redefinitions, hself, hown, scopeAncestors_eq_nil hgenerals]
  rfl

theorem diagnostics_scope_of_not_hasContent (h : ¬ m.hasContent d) :
    (m.scope v d).diagnostics = [] := by
  obtain ⟨hmembers, -, hgenerals⟩ := not_hasContent_iff.1 h
  rw [scope]
  split
  · rw [redefinitions_eq_nil hmembers hgenerals]
    rfl
  · rfl

theorem scopeProblems_eq (m : Model) (d : ElementId) :
    m.scopeProblems d = (m.scope .inside d).diagnostics := by
  rw [scopeProblems]
  split
  · rfl
  · rename_i h
    exact (diagnostics_scope_of_not_hasContent h).symm

theorem allProblems_eq (m : Model) : m.allProblems =
    m.report.diagnostics ++ m.preorder.flatMap fun d => (m.scope .inside d).diagnostics := by
  rw [allProblems]
  congr 1
  exact List.flatMap_congr fun d _ => m.scopeProblems_eq d

end Model
end Kerml
