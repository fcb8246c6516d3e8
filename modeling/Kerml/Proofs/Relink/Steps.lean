import Kerml.Proofs.Link.Names

/-!
# What resetting and relinking change

Both succeed for every known declaration, and leave the specializations of the others alone.
-/
namespace Kerml.Model

variable {m n : Model} {d e : ElementId}

def cleared (m : Model) (d : ElementId) : Model :=
  ({ m with
      specializations := m.specializations.put d []
      takenNames := m.takenNames.put d none
      memos := m.memos.put d .unknown
      report := m.report.dropAbout d } : Model).forgetNames d

/-- The model in which the requests of a declaration have been carried out and it has taken its
name. -/
def renamed (m : Model) (d : ElementId) : Model :=
  (m.applyRequests d).takeNames [d]

def rederived (m : Model) (d : ElementId) : Model :=
  (((m.renamed d).addSupertypes d).checkImports d).forgetCategories d

theorem reset_eq_ok_iff : m.reset d = .ok n ↔ m.contains d ∧ n = m.cleared d := by
  rw [reset]
  by_cases hd : m.contains d
  · simp only [hd, Bool.not_true, Bool.false_eq_true, if_false, Except.ok.injEq, true_and]
    exact eq_comm
  · simp [hd]

theorem relink_eq_ok_iff : m.relink d = .ok n ↔ m.contains d ∧ n = m.rederived d := by
  rw [relink]
  by_cases hd : m.contains d
  · simp only [hd, Bool.not_true, Bool.false_eq_true, if_false, Except.ok.injEq, true_and]
    exact eq_comm
  · simp [hd]

theorem cleared_forest (m : Model) (d : ElementId) : (m.cleared d).toForest = m.toForest := rfl

theorem cleared_get (m : Model) (d e : ElementId) :
    (m.cleared d).specializations.get e = if d = e then [] else m.specializations.get e :=
  Column.get_put ..

theorem cleared_takenNames (m : Model) (d e : ElementId) :
    (m.cleared d).takenNames.get e = if d = e then none else m.takenNames.get e :=
  Column.get_put ..

theorem cleared_memos (m : Model) (d e : ElementId) :
    (m.cleared d).memos.get e = if d = e then .unknown else m.memos.get e :=
  Column.get_put ..

theorem cleared_about (m : Model) (h : d ≠ e) : (m.cleared d).report.about e = m.report.about e := by
  change (m.report.diagnostics.filter (·.element != d)).filter (·.element == e) = _
  rw [List.filter_filter]
  refine List.filter_congr fun x _ => ?_
  by_cases hx : x.element = e
  · simp [hx, Ne.symm h]
  · simp [hx]

theorem renamed_sameEdges (m : Model) (d : ElementId) :
    SameEdges (m.applyRequests d) (m.renamed d) :=
  takeNames_sameEdges (m.applyRequests d) [d]

theorem renamed_forest (m : Model) (d : ElementId) : (m.renamed d).toForest = m.toForest :=
  (renamed_sameEdges m d).forest.trans (applyRequests_sameNames m d).forest

theorem rederived_forest (m : Model) (d : ElementId) : (m.rederived d).toForest = m.toForest := by
  rw [rederived, forgetCategories, checkImports, (addSupertypes_sameNames (m.renamed d) d).forest,
    renamed_forest]

theorem renamed_get (m : Model) (d e : ElementId) :
    (m.renamed d).specializations.get e =
      if d = e then ((m.requests d).filterMap (m.asked? d)).foldl Specialization.record
        (m.specializations.get d)
      else m.specializations.get e := by
  rw [(renamed_sameEdges m d).specializations, applyRequests_get]

theorem rederived_get (m : Model) (d e : ElementId) :
    (m.rederived d).specializations.get e =
      ((m.renamed d).addSupertypes d).specializations.get e := by
  rw [rederived, forgetCategories, checkImports]

theorem rederived_get_of_ne (m : Model) (h : d ≠ e) :
    (m.rederived d).specializations.get e = m.specializations.get e := by
  rw [rederived_get]
  by_cases hd : (m.renamed d).isType d
  · rw [addSupertypes_get hd, if_neg h, renamed_get, if_neg h]
  · rw [addSupertypes_of_not_isType hd, renamed_get, if_neg h]

/-- What is written down of a declaration is there before its supertypes are added. -/
theorem renamed_get_subset (m : Model) (d : ElementId) :
    (m.renamed d).specializations.get d ⊆ (m.rederived d).specializations.get d := by
  rw [rederived_get]
  exact subset_addSupertypes (m.renamed d) d d

theorem hasWrittenSupertype_of_rederived (h : (m.rederived d).hasWrittenSupertype d) :
    (m.renamed d).hasWrittenSupertype d := by
  have hwritten : ∀ query : SpecializationKind,
      Specialization.hasWritten ((m.rederived d).specializations.get d) query →
        Specialization.hasWritten ((m.renamed d).specializations.get d) query := by
    intro query hquery
    obtain ⟨s, hs, hkind⟩ := List.any_eq_true.1 hquery
    refine List.any_eq_true.2 ⟨s, ?_, hkind⟩
    rw [rederived_get] at hs
    by_cases hd : (m.renamed d).isType d
    · rw [addSupertypes_get hd, if_pos rfl] at hs
      rcases Specialization.mem_of_mem_foldl_record hs with hs | hs
      · exact hs
      · obtain ⟨r, -, himplied⟩ := List.mem_filterMap.1 hs
        simp [isImplied_of_implied? himplied] at hkind
    · rwa [addSupertypes_of_not_isType hd] at hs
  rw [hasWrittenSupertype, Bool.or_eq_true, rederived_forest] at h
  rw [hasWrittenSupertype, Bool.or_eq_true, renamed_forest]
  exact h.imp (hwritten _) (hwritten _)

theorem renamed_takenNames_of_ne (m : Model) (h : d ≠ e) :
    (m.renamed d).takenNames.get e = m.takenNames.get e := by
  rw [renamed, takeNames_singleton, ← (applyRequests_sameNames m d).takenNames]
  by_cases hd : (m.applyRequests d).isNameless d
  · rw [takenNames_takeName hd, if_neg h]
  · rw [takeName_of_not_isNameless hd]

theorem rederived_sameNames (m : Model) (d : ElementId) :
    SameNames (m.renamed d) (m.rederived d) := by
  have hsupplied := addSupertypes_sameNames (m.renamed d) d
  have hchecked := hsupplied.trans (checkImports_sameNames _ d)
  rw [rederived, forgetCategories]
  exact ⟨hchecked.forest, hchecked.pathFor?, hchecked.takenNames, hchecked.knownNames⟩

/-- Relinking reports what it finds after what was reported before. -/
theorem rederived_report (m : Model) (d : ElementId) :
    (m.rederived d).report.diagnostics = m.report.diagnostics ++
      ((m.requests d).filterMap (m.unbound? d) ++
      ((if m.isType d then ((m.renamed d).askRoles d).1.filterMap ((m.renamed d).missing? d)
        else []) ++
      (m.imports d).filterMap ((m.renamed d).importDiagnostic? d))) := by
  have hsupplied := addSupertypes_sameNames (m.renamed d) d
  rw [rederived, forgetCategories]
  change (((m.renamed d).addSupertypes d).checkImports d).report.diagnostics = _
  rw [checkImports_report, addSupertypes_report_of, (renamed_sameEdges m d).report,
    applyRequests_report, hsupplied.importDiagnostic?, hsupplied.forest, renamed_forest]
  simp only [List.append_assoc]

/-- What is remembered of categories stays the same, except that those of one declaration may be
forgotten. -/
def ForgetsAtMost (d : ElementId) (m n : Model) : Prop :=
  ∀ e, n.memos.get e = m.memos.get e ∨ d = e ∧ n.memos.get e = .unknown

theorem ForgetsAtMost.refl (m : Model) : ForgetsAtMost d m m := fun _ => Or.inl rfl

theorem ForgetsAtMost.trans {k : Model} (h : ForgetsAtMost d m n) (h' : ForgetsAtMost d n k) :
    ForgetsAtMost d m k := by
  intro e
  rcases h' e with hkept | hforgotten
  · rw [hkept]
    exact h e
  · exact Or.inr hforgotten

theorem ForgetsAtMost.get_eq (h : ForgetsAtMost d m n) (he : n.memos.get e ≠ .unknown) :
    n.memos.get e = m.memos.get e :=
  (h e).resolve_right fun hforgotten => he hforgotten.2

theorem specialize_forgetsAtMost (m : Model) (d : ElementId) (s : Specialization) :
    ForgetsAtMost d m (m.specialize d s) := by
  intro e
  have hget : (m.specialize d s).memos.get e = if d = e then .unknown else m.memos.get e :=
    Column.get_put ..
  by_cases hde : d = e
  · exact Or.inr ⟨hde, hget.trans (if_pos hde)⟩
  · exact Or.inl (hget.trans (if_neg hde))

theorem addProblem_forgetsAtMost (m : Model) (d e : ElementId) (span : Option Span) (p : Problem) :
    ForgetsAtMost d m (m.addProblem e span p) := fun _ => Or.inl rfl

theorem applyRequests_forgetsAtMost (m : Model) (d : ElementId) :
    ForgetsAtMost d m (m.applyRequests d) := by
  rw [applyRequests]
  refine foldl_rel ForgetsAtMost.refl ForgetsAtMost.trans
    (fun m (b : Request × Option ElementId) => ?_) _ m
  obtain ⟨r, _ | t⟩ := b
  · exact addProblem_forgetsAtMost m d d _ _
  · exact specialize_forgetsAtMost m d _

theorem memos_takeNames (m : Model) (ds : List ElementId) : (m.takeNames ds).memos = m.memos := by
  refine takeNames_induction (p := fun n : Model => n.memos = m.memos) (fun n d _ hn => ?_) rfl
  rw [takeName]
  split
  · split <;> exact hn
  · exact hn

theorem renamed_forgetsAtMost (m : Model) (d : ElementId) : ForgetsAtMost d m (m.renamed d) := by
  rw [ForgetsAtMost, renamed, memos_takeNames]
  exact applyRequests_forgetsAtMost m d

private theorem addImplied_forgetsAtMost (m : Model) (d : ElementId) (r : SupertypeRole) :
    ForgetsAtMost d m (m.addImplied d r) := by
  rw [addImplied]
  split
  · exact .refl m
  · split
    · exact addProblem_forgetsAtMost m d d _ _
    · split
      · exact .refl m
      · exact specialize_forgetsAtMost m d _

/-- The supertype that a declaration takes from the library may depend on categories. -/
def Consults (m : Model) (d : ElementId) : Prop :=
  (m.metaclass d).isFeature ∧ ¬ (m.metaclass d).isRelationship ∧ ¬ m.hasWrittenSupertype d

def informants (m : Model) (d : ElementId) : List ElementId :=
  if (m.metaclass d).isFeature && !(m.metaclass d).isRelationship && !m.hasWrittenSupertype d then
    (m.owner d).toList ++
      if m.metaclass d = .step ∨ m.metaclass d = .expression then [] else [d]
  else []

def consulted (m : Model) (d : ElementId) : Model :=
  if m.isType d then (m.askRoles d).2 else m

theorem informants_eq_nil (h : ¬ m.Consults d) : m.informants d = [] := by
  rw [informants, if_neg]
  simpa [Consults, and_assoc] using h

theorem consults_of_mem_informants (h : e ∈ m.informants d) : m.Consults d := by
  by_contra hnot
  rw [informants_eq_nil hnot] at h
  exact List.not_mem_nil h

theorem mem_informants (h : e ∈ m.informants d) : e = d ∨ m.owner d = some e := by
  rw [informants] at h
  split at h
  · rcases List.mem_append.1 h with h | h
    · exact Or.inr (Option.mem_toList.1 h)
    · split at h
      · exact absurd h List.not_mem_nil
      · exact Or.inl (List.mem_singleton.1 h)
  · exact absurd h List.not_mem_nil

private theorem askOwnerCategories_snd (m : Model) (d : ElementId) :
    (m.askOwnerCategories d).2 =
      (m.owner d).toList.foldl (fun n e => (n.askCategories e).2) m := by
  rw [askOwnerCategories]
  cases m.owner d <;> rfl

/-- Finding the role of a type asks its informants one after the other. -/
theorem consulted_eq (m : Model) (d : ElementId) :
    m.consulted d = (m.informants d).foldl (fun n e => (n.askCategories e).2) m := by
  by_cases hd : m.Consults d
  · obtain ⟨hfeature, hrelationship, hwritten⟩ := hd
    have howner := askOwnerCategories_snd m d
    rw [consulted, if_pos (Forest.isType_of_isFeature hfeature), informants]
    simp only [hfeature, hrelationship, hwritten, askRoles, askRole, List.foldl_append, ← howner,
      Bool.not_true, Bool.not_false, Bool.and_true, Bool.false_eq_true, if_true, if_false]
    cases hkind : m.metaclass d <;> simp_all
  · rw [informants_eq_nil hd, consulted]
    split
    · rw [List.foldl_nil, askRoles]
      by_cases hwritten : m.hasWrittenSupertype d
      · rw [if_pos hwritten]
      · simp only [hwritten, askRole]
        by_cases hrelationship : (m.metaclass d).isRelationship
        · simp [hrelationship]
        · have hfeature : ¬ (m.metaclass d).isFeature := fun h => hd ⟨h, hrelationship, hwritten⟩
          simp [hrelationship, hfeature]
    · rfl

/-- What each query for the categories of an informant keeps is kept. -/
theorem consulted_induction {p : Model → Prop} (hm : p m)
    (hasked : ∀ n, p n → ∀ e ∈ m.informants d, p (n.askCategories e).2) : p (m.consulted d) := by
  rw [consulted_eq]
  exact List.foldlRecOn (m.informants d) _ hm hasked

theorem consulted_sameButMemos (m : Model) (d : ElementId) : SameButMemos m (m.consulted d) :=
  consulted_induction (p := SameButMemos m) (.refl m) fun n hn e _ =>
    hn.trans (askCategories_sameButMemos n e)

theorem addSupertypes_forgetsAtMost (m : Model) (d : ElementId) :
    ForgetsAtMost d (m.consulted d) (m.addSupertypes d) := by
  rw [consulted, addSupertypes]
  split
  · exact foldl_rel ForgetsAtMost.refl ForgetsAtMost.trans
      (fun m r => addImplied_forgetsAtMost m d r) _ _
  · exact .refl m

/-- Relinking forgets the categories of the declaration. Of the others it remembers what it has asked
for. -/
theorem rederived_memos (m : Model) (d e : ElementId) :
    (m.rederived d).memos.get e =
      if d = e then .unknown else ((m.renamed d).consulted d).memos.get e := by
  rw [rederived, forgetCategories, checkImports]
  refine (Column.get_put ..).trans ?_
  by_cases hde : d = e
  · rw [if_pos hde, if_pos hde]
  · rw [if_neg hde, if_neg hde]
    exact (addSupertypes_forgetsAtMost (m.renamed d) d e).resolve_right fun h => hde h.1

end Kerml.Model
