import Kerml.Proofs.Classification.Memos
import Kerml.Proofs.Relink.Restored

/-!
# What relinking leaves alone

Resetting and relinking a declaration leaves alone all that belongs to other declarations.
Relinking may come to know their categories, and does not change what is known of them.
-/
namespace Kerml.Model

variable {m n k : Model} {d e : ElementId}

/-- What is written down is the same in both models, and so is all that has been derived for other
declarations than the given one, apart from their categories and qualified names. -/
structure SparesOthers (d : ElementId) (m n : Model) : Prop where
  forest : n.toForest = m.toForest
  library : n.library = m.library
  specializations : ∀ e, d ≠ e → n.specializations.get e = m.specializations.get e
  takenNames : ∀ e, d ≠ e → n.takenNames.get e = m.takenNames.get e
  report : n.report.dropAbout d = m.report.dropAbout d

private theorem cleared_sparesOthers (m : Model) (d : ElementId) : SparesOthers d m (m.cleared d) where
  forest := rfl
  library := rfl
  specializations e hde := by rw [cleared_get, if_neg hde]
  takenNames e hde := by rw [cleared_takenNames, if_neg hde]
  report := by simp [cleared, forgetNames, Report.dropAbout]

theorem rederived_sparesOthers (m : Model) (d : ElementId) : SparesOthers d m (m.rederived d) where
  forest := (rederived_sameWritten m d).forest
  library := (rederived_sameWritten m d).library
  specializations e hde := rederived_get_of_ne m hde
  takenNames e hde := by
    rw [(rederived_sameNames m d).takenNames, renamed_takenNames_of_ne m hde]
  report := by
    obtain ⟨found, hreport, hfound⟩ := exists_rederived_report m d
    have hnone : found.filter (·.element != d) = [] :=
      List.filter_eq_nil_iff.2 fun x hx => by simp [hfound x hx]
    rw [Report.dropAbout, hreport, List.filter_append, hnone, List.append_nil, Report.dropAbout]

/-- Of the other declarations, relinking may come to know the categories where they were not known. -/
theorem rederived_memos_of_ne (h : m.RemembersTypes) (hde : d ≠ e) :
    (m.rederived d).memos.get e = m.memos.get e ∨
      m.memos.get e = .unknown ∧ ∃ b, (m.rederived d).memos.get e = .done b := by
  have hkept : (m.renamed d).memos.get e = m.memos.get e :=
    (renamed_forgetsAtMost m d e).resolve_right fun hself => hde hself.1
  rw [rederived_memos, if_neg hde, ← hkept]
  exact (retains_consulted (h.renamed d).settled d e).imp_right And.right

/-- A known declaration can be reset and can be relinked. A reset leaves nothing derived for it and no
problem of it. Neither of the two changes what is written down or what has been derived for other
declarations, nor the order of their problems. A reset keeps what is remembered of their categories,
and relinking adds to it at most. -/
theorem reset_relink_sparesOthers (h : m.Reachable) (hd : m.contains d) :
    ∃ r k, m.reset d = .ok r ∧ m.relink d = .ok k ∧
      (r.specializations.get d = [] ∧ r.memos.get d = .unknown ∧ r.takenNames.get d = none ∧
        r.report.about d = []) ∧
      SparesOthers d m r ∧ SparesOthers d m k ∧
      (∀ e, d ≠ e → r.memos.get e = m.memos.get e) ∧
      ∀ e, d ≠ e → k.memos.get e = m.memos.get e ∨
        m.memos.get e = .unknown ∧ ∃ b, k.memos.get e = .done b := by
  refine ⟨m.cleared d, m.rederived d, reset_eq_ok_iff.2 ⟨hd, rfl⟩, relink_eq_ok_iff.2 ⟨hd, rfl⟩,
    ⟨?_, ?_, ?_, ?_⟩, cleared_sparesOthers m d, rederived_sparesOthers m d, ?_, ?_⟩
  · rw [cleared_get, if_pos rfl]
  · rw [cleared_memos, if_pos rfl]
  · rw [cleared_takenNames, if_pos rfl]
  · simp [cleared, forgetNames, Report.about, Report.dropAbout]
  · intro e hde
    rw [cleared_memos, if_neg hde]
  · exact fun e hde => rederived_memos_of_ne h.remembersTypes hde

theorem reset_relink_sparesOthers_lateStructure :
    lateStructure.link.Reachable ∧ lateStructure.link.contains ⟨0⟩ ∧
    ∃ r k, lateStructure.link.reset ⟨0⟩ = .ok r ∧ lateStructure.link.relink ⟨0⟩ = .ok k ∧
      r.specializations.get ⟨0⟩ = [] ∧
      k.specializations.get ⟨1⟩ = [{ general := ⟨2⟩, kind := .subsetting, isImplied := true }] ∧
      lateStructure.link.memos.get ⟨4⟩ = .unknown ∧ ∃ b, k.memos.get ⟨4⟩ = .done b := by
  have hreachable : lateStructure.link.Reachable :=
    ((Reachable.empty _).performAll _).perform .link rfl
  have hknown : lateStructure.link.contains ⟨0⟩ := by decide +kernel
  obtain ⟨r, k, hr, hk, ⟨hedges, -⟩, -, hspared, -, hmemos⟩ :=
    reset_relink_sparesOthers hreachable hknown
  refine ⟨hreachable, hknown, r, k, hr, hk, hedges, ?_, rfl, ?_⟩
  · rw [hspared.specializations ⟨1⟩ (by decide)]
    decide +kernel
  · refine ((hmemos ⟨4⟩ (by decide)).resolve_left ?_).2
    obtain ⟨-, rfl⟩ := relink_eq_ok_iff.1 hk
    decide +kernel

end Kerml.Model
