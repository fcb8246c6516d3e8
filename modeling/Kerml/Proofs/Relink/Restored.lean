import Kerml.Proofs.Link.Roles

/-!
# Relinking right after linking

A declaration that is reset and relinked is linked as before if its requests find the same
although names have been taken since, and if it takes its supertype by the same role although
others have got theirs since.
-/
namespace Kerml.Model

variable {m n : Model} {d e : ElementId}

/-- The requests of a declaration find after a reset what they found before any names were taken. -/
def Rebinds (m : Model) (d : ElementId) : Prop :=
  ∀ r ∈ m.requests d, (m.link.cleared d).bind? d r = m.unlinked.bind? d r

/-- A type that needs a supertype from the library takes it by the same role as before. -/
def KeepsRole (m : Model) (d : ElementId) : Prop :=
  m.isType d → ¬ m.link.hasWrittenSupertype d →
    (((m.link.cleared d).renamed d).askRole d).1 = ((m.supplied d).askRole d).1

theorem cleared_link_forest (m : Model) (d : ElementId) :
    (m.link.cleared d).toForest = m.toForest :=
  link_forest m

theorem renamed_link_forest (m : Model) (d : ElementId) :
    ((m.link.cleared d).renamed d).toForest = m.toForest :=
  (renamed_forest _ d).trans (cleared_link_forest m d)

theorem knownNames_takeNames {ds : List ElementId} (h : ∀ e, m.knownNames.get e = none) :
    ∀ e, (m.takeNames ds).knownNames.get e = none := by
  refine takeNames_induction (p := fun n : Model => ∀ e, n.knownNames.get e = none) ?_ h
  intro n d _ hn e
  rw [takeName]
  split
  · split
    · exact hn e
    · refine (Column.get_clearWhere ..).trans ?_
      split
      · rfl
      · exact hn e
  · exact hn e

theorem knownNames_link (m : Model) (d : ElementId) : m.link.knownNames.get d = none := by
  have hrequested : ∀ e, m.requested.knownNames.get e = none := by
    intro e
    rw [(requested_sameNames m).knownNames]
    rfl
  rw [(link_sameNames m).knownNames]
  exact knownNames_takeNames hrequested d

private theorem knownNames_renamed (m : Model) (d e : ElementId) :
    ((m.link.cleared d).renamed d).knownNames.get e = none := by
  refine knownNames_takeNames (fun e => ?_) e
  rw [(applyRequests_sameNames _ d).knownNames]
  refine (Column.get_clearWhere ..).trans ?_
  split
  · rfl
  · exact knownNames_link m e

theorem renamed_get_self (hbinds : m.Rebinds d) :
    ((m.link.cleared d).renamed d).specializations.get d = m.writtenEdges d := by
  have hasked : (m.requests d).filterMap ((m.link.cleared d).asked? d) =
      (m.requests d).filterMap (m.unlinked.asked? d) :=
    List.filterMap_congr fun r hr => by rw [asked?, asked?, hbinds r hr]
  rw [renamed_get, if_pos rfl, cleared_link_forest, hasked, cleared_get, if_pos rfl,
    Specialization.foldl_record _ _ (by simp)]
  rfl

theorem requests_forest (m : Model) (d : ElementId) :
    ((m.link.cleared d).applyRequests d).toForest = m.toForest :=
  (applyRequests_sameNames _ d).forest.trans (cleared_link_forest m d)

theorem takenNames_requests (m : Model) (d e : ElementId) :
    ((m.link.cleared d).applyRequests d).takenNames.get e =
      if d = e then none else m.named.takenNames.get e := by
  rw [(applyRequests_sameNames _ d).takenNames, cleared_takenNames, (link_sameNames m).takenNames]

/-- A declaration redefines what it redefined before. A redefinition of itself gives it no name
either time. -/
theorem redefinedName?_requests (h : m.WellFormed) (hd : m.contains d) (hbinds : m.Rebinds d)
    (hname : m.declaredName d = none) :
    ((m.link.cleared d).applyRequests d).redefinedName? d = m.named.redefinedName? d := by
  have hedges : ((m.link.cleared d).applyRequests d).specializationsOf d .redefinition =
      m.named.specializationsOf d .redefinition := by
    rw [specializationsOf, specializationsOf, ← (renamed_sameEdges _ d).specializations,
      renamed_get_self hbinds, (named_sameEdges m).specializations,
      requested_get h (h.mem_preorder_iff.2 hd)]
  rw [redefinedName?, redefinedName?, hedges]
  cases hfirst : (m.named.specializationsOf d .redefinition).head? with
  | none => rfl
  | some s =>
    rw [Option.bind_some, Option.bind_some, effectiveName, requests_forest, takenNames_requests]
    by_cases hloop : d = s.general
    · have hdeclared : m.named.declaredName d = none := by rwa [named_forest]
      have hnone : m.named.effectiveName d = none := by
        refine Option.eq_none_iff_forall_ne_some.2 fun name hsome => ?_
        exact not_goesBy_of_loop hdeclared hfirst hloop.symm ((effectiveName_named h).1 hsome)
      rw [if_pos hloop, ← hloop, hname, hnone, Option.none_or]
    · rw [if_neg hloop, effectiveName, named_forest]

theorem takenNames_renamed (h : m.WellFormed) (hd : m.contains d) (hbinds : m.Rebinds d)
    (e : ElementId) :
    ((m.link.cleared d).renamed d).takenNames.get e = m.link.takenNames.get e := by
  by_cases hde : d = e
  · subst hde
    have htaken : ((m.link.cleared d).applyRequests d).takenNames.get d = none := by
      rw [takenNames_requests, if_pos rfl]
    have hnameless : ((m.link.cleared d).applyRequests d).isNameless d ↔
        (m.metaclass d).isFeature ∧ m.declaredName d = none := by
      simp [isNameless, requests_forest, effectiveName, htaken]
    rw [renamed, takeNames_singleton, (link_sameNames m).takenNames]
    by_cases hunnamed : (m.metaclass d).isFeature ∧ m.declaredName d = none
    · rw [takenNames_takeName (hnameless.2 hunnamed), if_pos rfl,
        redefinedName?_requests h hd hbinds hunnamed.2, takenNames_named h hunnamed.1 hunnamed.2]
    · rw [takeName_of_not_isNameless (mt hnameless.1 hunnamed), htaken,
        takenNames_named_eq_none hunnamed]
  · rw [renamed_takenNames_of_ne _ hde, cleared_takenNames, if_neg hde]

theorem renamed_sameNames (h : m.WellFormed) (hd : m.contains d) (hbinds : m.Rebinds d) :
    SameNames m.link ((m.link.cleared d).renamed d) where
  forest := (renamed_link_forest m d).trans (link_forest m).symm
  pathFor? := by
    rw [(renamed_sameEdges _ d).library, (applyRequests_sameWritten _ d).library]
    rfl
  takenNames := funext (takenNames_renamed h hd hbinds)
  knownNames := by
    funext e
    rw [knownNames_renamed, knownNames_link]

theorem askRoles_renamed (h : m.WellFormed) (hd : m.isType d) (hbinds : m.Rebinds d)
    (hrole : m.KeepsRole d) : (((m.link.cleared d).renamed d).askRoles d).1 = m.roles d := by
  have hforest := renamed_link_forest m d
  have hget : ((m.link.cleared d).renamed d).specializations.get d = m.writtenEdges d ++ [] := by
    rw [renamed_get_self hbinds, List.append_nil]
  have hwritten := hasWrittenSupertype_of_get hforest hget fun s hs => absurd hs List.not_mem_nil
  have hasked := (askRole_sameButMemos ((m.link.cleared d).renamed d) d).sameEdges.forest
  rw [askRoles, roles, hwritten]
  by_cases hw : m.link.hasWrittenSupertype d
  · rw [hasWrittenSupertype_link h hd] at hw
    simp only [if_pos hw, isParticipant_of_forest hforest]
  · have hsame := hrole hd hw
    rw [hasWrittenSupertype_link h hd] at hw
    simp only [if_neg hw, hsame, isParticipant_of_forest (hasked.trans hforest)]

/-- The role of a declaration does not depend on any categories. -/
def HasFixedRole (m : Model) (d : ElementId) : Prop :=
  (m.metaclass d).isRelationship ∨ ¬ (m.metaclass d).isFeature ∨ m.metaclass d = .expression ∨
    m.metaclass d = .step ∧ ¬ (m.modifiers d).isComposite

theorem askRole_of_hasFixedRole (hd : m.HasFixedRole d) : (m.askRole d).1 =
    if (m.metaclass d).isRelationship ∧ m.isBinary d then .binary else .base := by
  simp only [askRole]
  by_cases hrelationship : (m.metaclass d).isRelationship
  · by_cases hbinary : m.isBinary d
    · simp [hrelationship, hbinary]
    · simp [hrelationship, hbinary]
  · have hother : ¬ ((m.metaclass d).isRelationship ∧ m.isBinary d) := fun h => hrelationship h.1
    rw [if_neg hrelationship, if_neg hother]
    by_cases hfeature : (m.metaclass d).isFeature
    · rw [if_neg (by simp [hfeature])]
      rcases hd with hd | hd | hd | ⟨hd, hcomposite⟩
      · exact absurd hd hrelationship
      · exact absurd hfeature hd
      · simp [hd]
      · simp [hd, stepRole, hcomposite]
    · rw [if_pos (by simp [hfeature])]

private theorem keepsRole_of_hasFixedRole (hd : m.HasFixedRole d) : m.KeepsRole d := by
  have hrenamed := renamed_link_forest m d
  have hfixed : ∀ n : Model, n.toForest = m.toForest → n.HasFixedRole d := by
    intro n hn
    rwa [HasFixedRole, hn]
  intro _ _
  rw [askRole_of_hasFixedRole (hfixed _ hrenamed),
    askRole_of_hasFixedRole (hfixed _ (supplied_forest m d)), hrenamed, supplied_forest]

private theorem takesFewer_cleared (m : Model) (d : ElementId) : TakesFewer (m.cleared d) m where
  forest := cleared_forest m d
  taken e name he := by
    rw [cleared_takenNames] at he
    split at he
    · cases he
    · exact he

private theorem rebinds_of_untaken
    (h : ∀ r ∈ m.requests d, ∀ path, r.target = .path path → m.link.Untaken (m.owner d) path) :
    m.Rebinds d := by
  intro r hr
  cases htarget : r.target with
  | element t => simp only [bind?, htarget]
  | path path =>
    have huntaken := h r hr path htarget
    have hfewer : TakesFewer m.unlinked m.link := .unlinked (link_forest m)
    simp only [bind?, htarget, cleared_link_forest]
    rw [huntaken.lookup_eq (takesFewer_cleared m.link d), ← huntaken.lookup_eq hfewer]
    rfl

/-- When a declaration is relinked right after linking its categories are asked for in a model in which
it alone has only what is written down. -/
theorem renamed_get_linkedBut (hbinds : m.Rebinds d) (e : ElementId) :
    ((m.link.cleared d).renamed d).specializations.get e =
      (m.linkedBut d).specializations.get e := by
  rw [linkedBut_get]
  by_cases hde : d = e
  · subst hde
    rw [if_pos rfl, renamed_get_self hbinds]
  · rw [if_neg hde, renamed_get, if_neg hde, cleared_get, if_neg hde]

theorem renamed_memos (m : Model) (d e : ElementId) :
    ((m.link.cleared d).renamed d).memos.get e = .unknown := by
  rcases renamed_forgetsAtMost (m.link.cleared d) d e with hkept | ⟨-, hforgotten⟩
  · rw [hkept, cleared_memos, memos_link]
    exact ite_self _
  · exact hforgotten

/-- When supertypes were added in time for a declaration, the role was chosen by the categories that it
is chosen by again. -/
theorem keepsRole_of_suppliesInOrder (h : m.Reachable) (hbinds : m.Rebinds d)
    (horder : m.SuppliesInOrder d) : m.KeepsRole d := by
  have hk : Coherent (m.linkedBut d) := coherent_linkedBut h d
  have hrenamed := renamed_link_forest m d
  have hsame : ((m.link.cleared d).renamed d).toForest = (m.linkedBut d).toForest :=
    hrenamed.trans (linkedBut_forest m d).symm
  have hget : ∀ e, ((m.link.cleared d).renamed d).specializations.get e =
      (m.linkedBut d).specializations.get e := renamed_get_linkedBut hbinds
  have hlags : Lags (m.linkedBut d) ((m.link.cleared d).renamed d) :=
    .of_unknown hsame (fun e => by rw [hget]; exact List.Subset.refl _) (renamed_memos m d)
  have hkeeps : KeepsUp (m.linkedBut d) ((m.linkedBut d).Concerns d) (fun _ => False)
      ((m.link.cleared d).renamed d) :=
    .of_unknown hsame (fun e _ => by rw [hget]; exact List.Subset.refl _) (renamed_memos m d)
  have hkeeps' := keepsUp_supplied h horder (List.append_nil _).symm
  have hagain := fun c => has_ownCategories_iff (c := c) hlags hkeeps hk fun _ _ => id
  have hbefore := fun c => has_ownCategories_iff (c := c)
    (lags_supplied_self h.coherent.forest d) hkeeps' hk horder.ready
  intro _ _
  exact askRole_congr (hrenamed.trans (supplied_forest m d).symm)
    (fun c => (hagain c).1.trans (hbefore c).1.symm)
    (fun c => (hagain c).2.trans (hbefore c).2.symm)

private theorem relinked_get (h : m.Reachable) (hbinds : m.Rebinds d) (hrole : m.KeepsRole d) :
    ((m.link.cleared d).rederived d).specializations.get d = m.link.specializations.get d := by
  have hrenamed := renamed_link_forest m d
  rw [rederived_get]
  by_cases hd : m.isType d
  · have htype : ((m.link.cleared d).renamed d).isType d := by rwa [hrenamed]
    have hsame := renamed_sameNames h.coherent.forest (Forest.contains_of_isType hd) hbinds
    rw [addSupertypes_get htype, if_pos rfl, askRoles_renamed h.coherent.forest hd hbinds hrole,
      hsame.implied?, renamed_get_self hbinds, foldl_record_implied, link_get,
      complete_get h.coherent.forest hd]
  · have htype : ¬ ((m.link.cleared d).renamed d).isType d := by rwa [hrenamed]
    have hlinked : m.link.specializations.get d = [] := by
      refine List.eq_nil_iff_forall_not_mem.2 fun s hs => hd ?_
      have hlink := h.coherent.link.isType_of_edge hs
      rwa [link_forest] at hlink
    rw [addSupertypes_of_not_isType htype, renamed_get_self hbinds, hlinked,
      writtenEdges_eq_nil h.coherent.forest hd]

private theorem relinked_report (h : m.Reachable) (hd : m.contains d) (hbinds : m.Rebinds d)
    (hrole : m.KeepsRole d) : ((m.link.cleared d).rederived d).report.diagnostics =
      m.link.report.diagnostics.filter (·.element != d) ++ m.link.report.about d := by
  have hforest : m.WellFormed := h.coherent.forest
  have hsame := renamed_sameNames hforest hd hbinds
  have hunbound : (m.requests d).filterMap ((m.link.cleared d).unbound? d) =
      (m.requests d).filterMap (m.unlinked.unbound? d) := by
    refine List.filterMap_congr fun r hr => ?_
    rw [unbound?, unbound?, hbinds r hr, cleared_link_forest]
    rfl
  rw [rederived_report, cleared_link_forest, hunbound, hsame.missing?, hsame.importDiagnostic?,
    about_link hforest hd]
  congr 2
  by_cases htype : m.isType d
  · rw [if_pos htype, if_pos htype, askRoles_renamed hforest htype hbinds hrole]
  · rw [if_neg htype, if_neg htype]

/-- All that relinking adds to the report is about the declaration. -/
theorem exists_rederived_report (m : Model) (d : ElementId) : ∃ found,
    (m.rederived d).report.diagnostics = m.report.diagnostics ++ found ∧
      ∀ x ∈ found, x.element = d := by
  refine ⟨_, rederived_report m d, fun x hx => ?_⟩
  rcases List.mem_append.1 hx with hx | hx
  · obtain ⟨r, -, hx⟩ := List.mem_filterMap.1 hx
    exact element_of_unbound? hx
  · rcases List.mem_append.1 hx with hx | hx
    · split at hx
      · obtain ⟨r, -, hx⟩ := List.mem_filterMap.1 hx
        exact element_of_missing? hx
      · cases hx
    · obtain ⟨i, -, hx⟩ := List.mem_filterMap.1 hx
      exact element_of_importDiagnostic? hx

private theorem rederived_about_of_ne (m : Model) (h : d ≠ e) :
    (m.rederived d).report.about e = m.report.about e := by
  obtain ⟨found, hreport, hfound⟩ := exists_rederived_report m d
  have hnone : found.filter (·.element == e) = [] :=
    List.filter_eq_nil_iff.2 fun x hx => by simp [hfound x hx, h]
  rw [Report.about, hreport, List.filter_append, hnone, List.append_nil, Report.about]

/-- After linking, a declaration can be reset and relinked, which leaves the others alone. It gets
back its specializations, its name and its problems if its requests find what they found before any
names were taken and if it keeps its role. They do when their paths meet no taken name, and it does
when its role does not depend on categories or when supertypes were added in time for it. -/
theorem relink_link (h : m.Reachable) (hd : m.contains d) :
    ∃ r k, m.link.reset d = .ok r ∧ r.relink d = .ok k ∧
      (∀ e, d ≠ e → k.specializations.get e = m.link.specializations.get e ∧
        k.takenNames.get e = m.link.takenNames.get e ∧
        k.report.about e = m.link.report.about e) ∧
      (m.Rebinds d → m.KeepsRole d →
        k.specializations.get d = m.link.specializations.get d ∧
        k.takenNames.get d = m.link.takenNames.get d ∧
        k.report.diagnostics.Perm m.link.report.diagnostics) ∧
      ((∀ q ∈ m.requests d, ∀ path, q.target = .path path →
        m.link.Untaken (m.owner d) path) → m.Rebinds d) ∧
      (m.HasFixedRole d → m.KeepsRole d) ∧
      (m.SuppliesInOrder d → m.Rebinds d → m.KeepsRole d) := by
  have hlinked : m.link.contains d := by rwa [link_forest]
  refine ⟨m.link.cleared d, (m.link.cleared d).rederived d, reset_eq_ok_iff.2 ⟨hlinked, rfl⟩,
    relink_eq_ok_iff.2 ⟨hlinked, rfl⟩, ?_, ?_, rebinds_of_untaken, keepsRole_of_hasFixedRole,
    fun horder hbinds => keepsRole_of_suppliesInOrder h hbinds horder⟩
  · intro e hde
    refine ⟨?_, ?_, (rederived_about_of_ne _ hde).trans (cleared_about m.link hde)⟩
    · rw [rederived_get_of_ne _ hde, cleared_get, if_neg hde]
    · rw [(rederived_sameNames _ d).takenNames, renamed_takenNames_of_ne _ hde,
        cleared_takenNames, if_neg hde]
  · intro hbinds hrole
    refine ⟨relinked_get h hbinds hrole, ?_, ?_⟩
    · rw [(rederived_sameNames _ d).takenNames, takenNames_renamed h.coherent.forest hd hbinds]
    · rw [relinked_report h hd hbinds hrole]
      simpa [Report.about, bne] using
        List.filter_append_perm (·.element != d) m.link.report.diagnostics

/-- A structure, a feature that redefines another one and takes its name, and a feature that is typed
by the path to the structure and by a path that leads nowhere. The library has a supertype for features
that are structures. -/
def typedByPath : Model :=
  performAll { library := SupertypeTable.empty.insert .feature .object "T" }
    [.addRoot { metaclass := .struct, name := some "S" },
      .addRoot { metaclass := .type, name := some "T" },
      .addRoot { metaclass := .feature, name := some "x" },
      .addRoot { metaclass := .feature },
      .addRoot { metaclass := .feature, name := some "f" },
      .request ⟨3⟩ { target := .element ⟨2⟩, kind := .redefinition },
      .request ⟨4⟩ { target := .path ["S"], kind := .typing },
      .request ⟨4⟩ { target := .path ["N"], kind := .typing }]

theorem typedByPath_suppliesInOrder : typedByPath.SuppliesInOrder ⟨4⟩ := by
  have hlinked : typedByPath.link.Closed (· ∈ [⟨0⟩]) := by
    unfold Closed
    decide +kernel
  have hall : (typedByPath.linkedBut ⟨4⟩).Closed (· ∈ [⟨4⟩, ⟨0⟩]) := by
    unfold Closed
    decide +kernel
  have hroot : typedByPath.owner ⟨4⟩ = none := by decide +kernel
  refine suppliesInOrder_of_settled ?_ ?_ ?_
  · have hwritten : typedByPath.writtenSpecializations ⟨4⟩ =
        [{ general := ⟨0⟩, kind := .typing }] := by decide +kernel
    intro s hs hback
    rw [hwritten, List.mem_singleton] at hs
    subst s
    exact absurd (hback.within hlinked (by decide)) (by decide)
  · intro o ho
    cases hroot.symm.trans ho
  · rintro v (hv | ⟨o, ho, -⟩) hne
    · rcases List.mem_cons.1 (hv.within hall (by decide)) with rfl | hmem
      · exact absurd rfl hne
      · rw [List.mem_singleton.1 hmem]
        decide +kernel
    · rw [linkedBut_forest] at ho
      cases hroot.symm.trans ho

theorem relink_link_typedByPath :
    typedByPath.Reachable ∧ typedByPath.contains ⟨3⟩ ∧ typedByPath.contains ⟨4⟩ ∧
    (∀ q ∈ typedByPath.requests ⟨4⟩, ∀ path, q.target = .path path →
      typedByPath.link.Untaken (typedByPath.owner ⟨4⟩) path) ∧
    typedByPath.SuppliesInOrder ⟨4⟩ ∧ ¬ typedByPath.link.hasWrittenSupertype ⟨4⟩ ∧
    (∃ r k, typedByPath.link.reset ⟨4⟩ = .ok r ∧ r.relink ⟨4⟩ = .ok k ∧
      k.specializations.get ⟨4⟩ =
        [{ general := ⟨0⟩, kind := .typing },
          { general := ⟨1⟩, kind := .subsetting, isImplied := true }] ∧
      k.report.diagnostics.Perm [(Problem.undefinedReference "N").diagnostic ⟨4⟩ none]) ∧
    ∃ r k, typedByPath.link.reset ⟨3⟩ = .ok r ∧ r.relink ⟨3⟩ = .ok k ∧
      k.specializations.get ⟨3⟩ = [{ general := ⟨2⟩, kind := .redefinition }] ∧
      k.takenNames.get ⟨3⟩ = some "x" := by
  have hreachable : typedByPath.Reachable := (Reachable.empty _).performAll _
  have hknown : typedByPath.contains ⟨4⟩ := by decide +kernel
  have hunnamed : typedByPath.contains ⟨3⟩ := by decide +kernel
  have hpaths : ∀ q ∈ typedByPath.requests ⟨4⟩, ∀ path, q.target = .path path →
      typedByPath.link.Untaken (typedByPath.owner ⟨4⟩) path := by
    have hrequests : typedByPath.requests ⟨4⟩ =
        [{ target := .path ["S"], kind := .typing },
          { target := .path ["N"], kind := .typing }] := by decide +kernel
    have huntaken : typedByPath.link.Untaken (typedByPath.owner ⟨4⟩) ["S"] ∧
        typedByPath.link.Untaken (typedByPath.owner ⟨4⟩) ["N"] := by decide +kernel
    intro q hq path hpath
    rw [hrequests, List.mem_cons, List.mem_singleton] at hq
    rcases hq with rfl | rfl
    · cases hpath
      exact huntaken.1
    · cases hpath
      exact huntaken.2
  have helement : ∀ q ∈ typedByPath.requests ⟨3⟩, ∀ path, q.target = .path path →
      typedByPath.link.Untaken (typedByPath.owner ⟨3⟩) path := by
    have hrequests : typedByPath.requests ⟨3⟩ =
        [{ target := .element ⟨2⟩, kind := .redefinition }] := by decide +kernel
    intro q hq path hpath
    rw [hrequests, List.mem_singleton] at hq
    subst q
    cases hpath
  have hrole : typedByPath.KeepsRole ⟨3⟩ := fun _ hneeds => absurd (by decide +kernel) hneeds
  refine ⟨hreachable, hunnamed, hknown, hpaths, typedByPath_suppliesInOrder, by decide +kernel, ?_, ?_⟩
  · obtain ⟨r, k, hr, hk, -, hrestored, hbinds, -, hkeeps⟩ := relink_link hreachable hknown
    obtain ⟨hedges, -, hreport⟩ :=
      hrestored (hbinds hpaths) (hkeeps typedByPath_suppliesInOrder (hbinds hpaths))
    refine ⟨r, k, hr, hk, hedges.trans ?_, hreport.trans (List.Perm.of_eq ?_)⟩
    all_goals decide +kernel
  · obtain ⟨r, k, hr, hk, -, hrestored, hbinds, -⟩ := relink_link hreachable hunnamed
    obtain ⟨hedges, hname, -⟩ := hrestored (hbinds helement) hrole
    refine ⟨r, k, hr, hk, hedges.trans ?_, hname.trans ?_⟩
    all_goals decide +kernel

/-- A path that is bound only after names have been taken adds a specialization and takes back a
problem. A supertype that is added later changes the role of what comes before. -/
theorem relinked_differently :
    (borrowedName.Reachable ∧ ∃ r k, borrowedName.link.reset ⟨4⟩ = .ok r ∧ r.relink ⟨4⟩ = .ok k ∧
      k.specializations.get ⟨4⟩ ≠ borrowedName.link.specializations.get ⟨4⟩ ∧
      ¬ k.report.diagnostics.Perm borrowedName.link.report.diagnostics) ∧
    lateStructure.Reachable ∧ lateStructure.Rebinds ⟨0⟩ ∧
      ∃ r k, lateStructure.link.reset ⟨0⟩ = .ok r ∧ r.relink ⟨0⟩ = .ok k ∧
        lateStructure.link.specializations.get ⟨0⟩ =
          [{ general := ⟨1⟩, kind := .typing },
            { general := ⟨2⟩, kind := .subsetting, isImplied := true }] ∧
        k.specializations.get ⟨0⟩ =
          [{ general := ⟨1⟩, kind := .typing },
            { general := ⟨3⟩, kind := .subsetting, isImplied := true }] := by
  refine ⟨⟨(Reachable.empty .empty).performAll _, _, _,
    reset_eq_ok_iff.2 ⟨by decide +kernel, rfl⟩, relink_eq_ok_iff.2 ⟨by decide +kernel, rfl⟩,
    by decide +kernel, by decide +kernel⟩, (Reachable.empty _).performAll _, ?_, _, _,
    reset_eq_ok_iff.2 ⟨by decide +kernel, rfl⟩, relink_eq_ok_iff.2 ⟨by decide +kernel, rfl⟩,
    by decide +kernel, by decide +kernel⟩
  intro q hq
  have hrequests : lateStructure.requests ⟨0⟩ = [{ target := .element ⟨1⟩, kind := .typing }] := by
    decide +kernel
  rw [hrequests, List.mem_singleton] at hq
  rw [hq]
  rfl

end Kerml.Model
