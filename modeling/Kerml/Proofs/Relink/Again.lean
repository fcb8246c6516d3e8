import Kerml.Proofs.Classification.Learned
import Kerml.Proofs.Relink.Others

/-!
# Relinking once more

A declaration is reset and relinked for a second time. Its requests, its name, its supertypes and
its imports come out as they did the first time, and nothing more is learned of categories.
-/
namespace Kerml.Model

variable {m n : Model} {d e x : ElementId}

structure LinkedAlike (m n : Model) : Prop where
  names : SameNames m n
  specializations : n.specializations.get = m.specializations.get
  report : n.report.diagnostics = m.report.diagnostics

namespace LinkedAlike

theorem applyRequests (h : LinkedAlike m n) (d : ElementId) :
    LinkedAlike (m.applyRequests d) (n.applyRequests d) where
  names := (applyRequests_sameNames m d).symm.trans (h.names.trans (applyRequests_sameNames n d))
  specializations := by
    funext e
    rw [applyRequests_get, applyRequests_get, h.names.asked?, h.names.forest, h.specializations]
  report := by
    rw [applyRequests_report, applyRequests_report, h.names.unbound?, h.names.forest, h.report]

theorem takeName (h : LinkedAlike m n) (d : ElementId) :
    LinkedAlike (m.takeName d) (n.takeName d) := by
  have hnameless : n.isNameless d = m.isNameless d := by
    rw [isNameless, isNameless, h.names.effectiveName, h.names.forest]
  have hredefined : n.redefinedName? d = m.redefinedName? d := by
    rw [redefinedName?, redefinedName?, h.names.effectiveName, specializationsOf, specializationsOf,
      h.specializations]
  rw [Model.takeName, Model.takeName, hnameless, hredefined]
  split
  · split
    · exact h
    · refine ⟨⟨h.names.forest, h.names.pathFor?, ?_, ?_⟩, h.specializations, h.report⟩
      · funext e
        rw [forgetNames, forgetNames, Column.get_put, Column.get_put, h.names.takenNames]
      · funext e
        rw [forgetNames, forgetNames, Column.get_clearWhere, Column.get_clearWhere,
          h.names.knownNames, h.names.forest]
  · exact h

theorem renamed (h : LinkedAlike m n) (d : ElementId) :
    LinkedAlike (m.renamed d) (n.renamed d) := by
  rw [Model.renamed, Model.renamed, takeNames_singleton, takeNames_singleton]
  exact (h.applyRequests d).takeName d

/-- Relinking keeps models alike in which the declaration has the same roles. -/
theorem rederived (h : LinkedAlike m n)
    (hroles : ((n.renamed d).askRoles d).1 = ((m.renamed d).askRoles d).1) :
    LinkedAlike (m.rederived d) (n.rederived d) where
  names := (rederived_sameNames m d).symm.trans
    ((h.renamed d).names.trans (rederived_sameNames n d))
  specializations := by
    have hrenamed := h.renamed d
    have hforest := hrenamed.names.forest
    funext e
    rw [rederived_get, rederived_get]
    by_cases hd : (m.renamed d).isType d
    · have hd' : (n.renamed d).isType d := by rwa [hforest]
      rw [addSupertypes_get hd, addSupertypes_get hd', hroles, hrenamed.names.implied?,
        hrenamed.specializations]
    · have hd' : ¬ (n.renamed d).isType d := by rwa [hforest]
      rw [addSupertypes_of_not_isType hd, addSupertypes_of_not_isType hd',
        hrenamed.specializations]
  report := by
    have hrenamed := (h.renamed d).names
    rw [rederived_report, rederived_report, h.report, hroles, h.names.unbound?, h.names.forest,
      hrenamed.missing?, hrenamed.importDiagnostic?]

end LinkedAlike

theorem cleared_knownNames (m : Model) (d e : ElementId) :
    (m.cleared d).knownNames.get e = if m.encloses d e then none else m.knownNames.get e :=
  Column.get_clearWhere ..

private theorem renamed_knownNames (m : Model) (d e : ElementId) :
    (m.renamed d).knownNames.get e = m.knownNames.get e ∨
      m.encloses d e ∧ (m.renamed d).knownNames.get e = none := by
  have hrequested := applyRequests_sameNames m d
  rw [renamed, takeNames_singleton, ← hrequested.knownNames, ← hrequested.forest, takeName]
  split
  · split
    · exact Or.inl rfl
    · have hget := Column.get_clearWhere (m.applyRequests d).knownNames
        (fun e => (m.applyRequests d).encloses d e) e
      by_cases hde : (m.applyRequests d).encloses d e
      · exact Or.inr ⟨hde, hget.trans (if_pos hde)⟩
      · exact Or.inl (hget.trans (if_neg hde))
  · exact Or.inl rfl

/-- After relinking, another reset drops all that has been derived since the first one. -/
theorem cleared_linkedAlike (m : Model) (d : ElementId) :
    LinkedAlike (m.cleared d) (((m.cleared d).rederived d).cleared d) where
  names := by
    have hspared := rederived_sparesOthers (m.cleared d) d
    refine ⟨hspared.forest, by rw [← hspared.library]; rfl, ?_, ?_⟩
    · funext e
      rw [cleared_takenNames]
      by_cases hde : d = e
      · rw [if_pos hde, cleared_takenNames, if_pos hde]
      · rw [if_neg hde, hspared.takenNames e hde]
    · funext e
      rw [cleared_knownNames, hspared.forest]
      by_cases hde : (m.cleared d).encloses d e
      · rw [if_pos hde, cleared_knownNames]
        exact (if_pos hde).symm
      · rw [if_neg hde, (rederived_sameNames _ d).knownNames]
        exact (renamed_knownNames _ d e).resolve_right fun h => hde h.1
  specializations := by
    funext e
    rw [cleared_get]
    by_cases hde : d = e
    · rw [if_pos hde, cleared_get, if_pos hde]
    · rw [if_neg hde, rederived_get_of_ne _ hde]
  report := by
    have hspared := congrArg Report.diagnostics (rederived_sparesOthers (m.cleared d) d).report
    refine hspared.trans ?_
    simp [cleared, forgetNames, Report.dropAbout]

/-- When a declaration is relinked after a reset, nothing is remembered of its categories. -/
theorem renamed_cleared_memos (m : Model) (d e : ElementId) :
    ((m.cleared d).renamed d).memos.get e = if d = e then .unknown else m.memos.get e := by
  rw [← cleared_memos]
  refine (renamed_forgetsAtMost (m.cleared d) d e).elim id fun hforgotten => ?_
  rw [hforgotten.2, cleared_memos, if_pos hforgotten.1]

/-- The second time that a declaration is relinked, what is remembered of others is what the first time
has left. -/
theorem renamed_again_memos (m : Model) (d e : ElementId) :
    ((((m.cleared d).rederived d).cleared d).renamed d).memos.get e =
      if d = e then .unknown else (((m.cleared d).renamed d).consulted d).memos.get e := by
  rw [renamed_cleared_memos, rederived_memos]
  by_cases hde : d = e
  · rw [if_pos hde, if_pos hde]
  · rw [if_neg hde, if_neg hde]

theorem learns_renamed_again (h : m.RemembersTypes) (d : ElementId) :
    Learns ((m.cleared d).renamed d) ((((m.cleared d).rederived d).cleared d).renamed d) := by
  have hrenamed := (cleared_linkedAlike m d).renamed d
  refine ⟨hrenamed.names.forest, hrenamed.specializations, fun e => ?_⟩
  rw [renamed_again_memos]
  by_cases hde : d = e
  · rw [if_pos hde, renamed_cleared_memos, if_pos hde]
    exact Or.inl rfl
  · rw [if_neg hde, consulted_eq]
    exact (exhausts_foldl ((h.cleared d).renamed d).settled _).1.memos e

/-- The second time, the informants are known, and so is all that the declaration has been found to lead
to. -/
theorem rederived_again_memos (h : m.RemembersTypes) (d e : ElementId) :
    ((((m.cleared d).rederived d).cleared d).rederived d).memos.get e =
      ((m.cleared d).rederived d).memos.get e := by
  have hlearns := learns_renamed_again h d
  have hinformants := hlearns.informants d
  obtain ⟨-, hexhausts, hknows⟩ :=
    exhausts_foldl ((h.cleared d).renamed d).settled (((m.cleared d).renamed d).informants d)
  rw [← consulted_eq] at hexhausts hknows
  have hforest := (consulted_sameButMemos ((m.cleared d).renamed d) d).sameEdges.forest
  -- what has been known after the first time is known the second time, except for the declaration
  have hstill : ∀ t, t ≠ d → (((m.cleared d).renamed d).consulted d).Knows t →
      ((((m.cleared d).rederived d).cleared d).renamed d).Knows t := by
    intro t ht hknown htype
    rw [renamed_again_memos, if_neg (Ne.symm ht)]
    refine hknown ?_
    rwa [hforest, ← hlearns.forest]
  rw [rederived_memos, rederived_memos]
  by_cases hde : d = e
  · rw [if_pos hde, if_pos hde]
  · rw [if_neg hde, if_neg hde, memos_consulted_of_knows ?_ ?_ (Ne.symm hde),
      renamed_again_memos, if_neg hde]
    · intro t ht htd
      exact hstill t htd (hknows t (hinformants ▸ ht))
    · intro hmem t ht htd
      rw [hinformants] at hmem
      have htype : (((m.cleared d).renamed d).consulted d).isType d := by
        rw [hforest]
        exact Forest.isType_of_isFeature (consults_of_mem_informants hmem).1
      have hunknown : ((m.cleared d).renamed d).memos.get d = .unknown := by
        rw [renamed_cleared_memos, if_pos rfl]
      exact hstill t htd (hexhausts d hunknown (hknows d hmem htype) t (hlearns.generalTypes ▸ ht))

/-- Whatever is remembered, resetting and relinking a declaration once more changes nothing. -/
theorem reset_relink_again (h : m.Reachable) (hd : m.contains d) :
    ∃ r k r' k', m.reset d = .ok r ∧ r.relink d = .ok k ∧
      k.reset d = .ok r' ∧ r'.relink d = .ok k' ∧
      (∀ e, k'.specializations.get e = k.specializations.get e ∧
        k'.takenNames.get e = k.takenNames.get e ∧
        k'.qualifiedName e = k.qualifiedName e ∧ k'.memos.get e = k.memos.get e) ∧
      k'.report.diagnostics = k.report.diagnostics := by
  have hmemos := h.remembersTypes
  have hroles := (learns_renamed_again hmemos d).askRoles ((hmemos.cleared d).renamed d).settled d
  have halike := (cleared_linkedAlike m d).rederived hroles
  have hknown : ((m.cleared d).rederived d).contains d := by rwa [rederived_forest]
  refine ⟨_, _, _, _, reset_eq_ok_iff.2 ⟨hd, rfl⟩, relink_eq_ok_iff.2 ⟨hd, rfl⟩,
    reset_eq_ok_iff.2 ⟨hknown, rfl⟩, relink_eq_ok_iff.2 ⟨hknown, rfl⟩, fun e => ?_, halike.report⟩
  rw [halike.specializations, halike.names.takenNames, halike.names.qualifiedName]
  exact ⟨rfl, rfl, rfl, rederived_again_memos hmemos d e⟩

theorem reset_relink_again_lateStructure :
    lateStructure.link.Reachable ∧ lateStructure.link.contains ⟨0⟩ ∧
    ∃ r k r' k', lateStructure.link.reset ⟨0⟩ = .ok r ∧ r.relink ⟨0⟩ = .ok k ∧
      k.reset ⟨0⟩ = .ok r' ∧ r'.relink ⟨0⟩ = .ok k' ∧
      k'.specializations.get ⟨0⟩ =
        [{ general := ⟨1⟩, kind := .typing },
          { general := ⟨3⟩, kind := .subsetting, isImplied := true }] ∧
      k'.memos.get ⟨0⟩ = .unknown ∧
      k'.memos.get ⟨1⟩ = .done Metaclass.struct.categories := by
  have hreachable : lateStructure.link.Reachable :=
    ((Reachable.empty _).performAll _).perform .link rfl
  have hknown : lateStructure.link.contains ⟨0⟩ := by decide +kernel
  obtain ⟨r, k, r', k', hr, hk, hr', hk', hsame, -⟩ := reset_relink_again hreachable hknown
  obtain ⟨-, rfl⟩ := reset_eq_ok_iff.1 hr
  obtain ⟨-, rfl⟩ := relink_eq_ok_iff.1 hk
  refine ⟨hreachable, hknown, _, _, r', k', hr, hk, hr', hk', ?_, ?_, ?_⟩
  · rw [(hsame ⟨0⟩).1]
    decide +kernel
  · rw [(hsame ⟨0⟩).2.2.2]
    decide +kernel
  · rw [(hsame ⟨1⟩).2.2.2]
    decide +kernel

end Kerml.Model
