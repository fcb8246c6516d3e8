import Kerml.Proofs.Distinct
import Kerml.Proofs.Lookup
import Mathlib.Data.List.Induction

/-!
# What each step of linking changes

A step changes the specializations of one type and the report, or the taken names. All else stays
as it is, so that lookups give the same answers throughout a phase.
-/
namespace Kerml

namespace Specialization

/-- Recording specializations one after the other keeps the first of each general type. -/
theorem foldl_record (held es : List Specialization) (h : (held.map (·.general)).Nodup) :
    es.foldl record held = distinctBy (·.general) (held ++ es) := by
  induction es using List.reverseRecOn with
  | nil => simp [distinctBy_eq_self h]
  | append_singleton es s ih =>
    rw [List.foldl_append, ih, ← List.append_assoc, distinctBy_concat]
    have hknown : (distinctBy (·.general) (held ++ es)).any (·.general == s.general) ↔
        s.general ∈ (held ++ es).map (·.general) := by
      rw [← mem_map_distinctBy, List.mem_map, List.any_eq_true]
      simp
    simp only [List.foldl_cons, List.foldl_nil, record, hknown]

theorem mem_of_mem_foldl_record {held es : List Specialization} {s : Specialization}
    (h : s ∈ es.foldl record held) : s ∈ held ∨ s ∈ es := by
  induction es generalizing held with
  | nil => exact Or.inl h
  | cons t es ih =>
    rcases ih h with h | h
    · rw [record] at h
      split at h
      · exact Or.inl h
      · rcases List.mem_append.1 h with h | h
        · exact Or.inl h
        · exact Or.inr (by simp [List.mem_singleton.1 h])
    · exact Or.inr (List.mem_cons_of_mem _ h)

private theorem mem_foldl_record {held : List Specialization} {s : Specialization} (h : s ∈ held)
    (es : List Specialization) : s ∈ es.foldl record held := by
  induction es generalizing held with
  | nil => exact h
  | cons t es ih =>
    refine ih ?_
    rw [record]
    split
    · exact h
    · exact List.mem_append_left _ h

end Specialization

def Request.toward (r : Request) (t : ElementId) : Specialization where
  general := t
  kind := r.kind
  visibility := r.visibility

namespace Model

variable {m n : Model} {d e : ElementId}

def asked? (m : Model) (d : ElementId) (r : Request) : Option Specialization :=
  (m.bind? d r).map r.toward

def unbound? (m : Model) (d : ElementId) (r : Request) : Option Diagnostic :=
  if (m.bind? d r).isNone then
    some ((Problem.undefinedReference (referenceText r.target)).diagnostic d
      (r.span.or (m.span d)))
  else none

theorem specialize_sameNames (m : Model) (d : ElementId) (s : Specialization) :
    SameNames m (m.specialize d s) := ⟨rfl, rfl, rfl, rfl⟩

theorem addProblem_sameNames (m : Model) (d : ElementId) (span : Option Span) (p : Problem) :
    SameNames m (m.addProblem d span p) := ⟨rfl, rfl, rfl, rfl⟩

theorem specialize_get (m : Model) (d e : ElementId) (s : Specialization) :
    (m.specialize d s).specializations.get e =
      if d = e then Specialization.record (m.specializations.get d) s
      else m.specializations.get e :=
  Column.get_put _ _ _ _

theorem applyRequest_sameNames (m : Model) (d : ElementId) (r : Request) (t : Option ElementId) :
    SameNames m (m.applyRequest d r t) := by
  cases t with
  | none => exact addProblem_sameNames ..
  | some t => exact specialize_sameNames ..

theorem applyRequests_sameNames (m : Model) (d : ElementId) : SameNames m (m.applyRequests d) := by
  rw [applyRequests]
  exact SameNames.foldl (fun m (b : Request × Option ElementId) => applyRequest_sameNames m d b.1 b.2) _ m

private theorem foldl_applyRequest_get (bs : List (Request × Option ElementId)) (m : Model) :
    (bs.foldl (fun m b => m.applyRequest d b.1 b.2) m).specializations.get e =
      if d = e then (bs.filterMap fun b => b.2.map b.1.toward).foldl Specialization.record
        (m.specializations.get d)
      else m.specializations.get e := by
  induction bs generalizing m with
  | nil => simp +contextual
  | cons b bs ih =>
    obtain ⟨r, _ | t⟩ := b
    · exact ih (m.addProblem ..)
    · rw [List.foldl_cons, ih]
      change (if d = e then _ else (m.specialize d (r.toward t)).specializations.get e) = _
      rw [specialize_get]
      by_cases hde : d = e
      · simp [hde, applyRequest, specialize_get, Request.toward]
      · simp [hde]

theorem applyRequests_get (m : Model) (d e : ElementId) :
    (m.applyRequests d).specializations.get e =
      if d = e then ((m.requests d).filterMap (m.asked? d)).foldl Specialization.record
        (m.specializations.get d)
      else m.specializations.get e := by
  rw [applyRequests, foldl_applyRequest_get, List.filterMap_map]
  rfl

theorem applyRequests_report (m : Model) (d : ElementId) :
    (m.applyRequests d).report.diagnostics =
      m.report.diagnostics ++ (m.requests d).filterMap (m.unbound? d) := by
  have hfold : ∀ (rs : List Request) (n : Model), n.toForest = m.toForest →
      ((rs.map fun r => (r, m.bind? d r)).foldl (fun m b => m.applyRequest d b.1 b.2)
        n).report.diagnostics = n.report.diagnostics ++ rs.filterMap (m.unbound? d) := by
    intro rs
    induction rs with
    | nil => simp
    | cons r rs ih =>
      intro n hn
      rw [List.map_cons, List.foldl_cons, ih _ ((applyRequest_sameNames ..).forest.trans hn)]
      cases hb : m.bind? d r with
      | none => simp [hb, hn, applyRequest, addProblem, Report.add, unbound?]
      | some t => simp [hb, applyRequest, specialize, unbound?]
  exact hfold _ m rfl

/-- A model with the declarations, the library and the specializations of another one, of which the
same has been reported. Names may differ. -/
structure SameEdges (m n : Model) : Prop where
  forest : n.toForest = m.toForest
  library : n.library = m.library
  specializations : n.specializations = m.specializations
  report : n.report = m.report

theorem SameEdges.refl (m : Model) : SameEdges m m := ⟨rfl, rfl, rfl, rfl⟩

theorem SameEdges.symm (h : SameEdges m n) : SameEdges n m :=
  ⟨h.forest.symm, h.library.symm, h.specializations.symm, h.report.symm⟩

theorem SameEdges.trans {k : Model} (h : SameEdges m n) (h' : SameEdges n k) : SameEdges m k :=
  ⟨h'.forest.trans h.forest, h'.library.trans h.library,
    h'.specializations.trans h.specializations, h'.report.trans h.report⟩

theorem SameEdges.foldl {α : Type} {step : Model → α → Model}
    (hstep : ∀ m a, SameEdges m (step m a)) (as : List α) (m : Model) :
    SameEdges m (as.foldl step m) :=
  foldl_rel SameEdges.refl SameEdges.trans hstep as m

theorem takeName_sameEdges (m : Model) (d : ElementId) : SameEdges m (m.takeName d) := by
  rw [takeName]
  split
  · split
    · exact .refl m
    · exact ⟨rfl, rfl, rfl, rfl⟩
  · exact .refl m

theorem takeNamesOnce_sameEdges (m : Model) (ds : List ElementId) :
    SameEdges m (m.takeNamesOnce ds) :=
  SameEdges.foldl takeName_sameEdges ds m

theorem takeNames_sameEdges (m : Model) (ds : List ElementId) : SameEdges m (m.takeNames ds) := by
  fun_induction takeNames m ds with
  | case1 m next _ ih => exact (takeNamesOnce_sameEdges m ds).trans ih
  | case2 m next _ => exact takeNamesOnce_sameEdges m ds

/-- The specialization that the library implies for a type in a role, if it has a path for the role
that leads to another declaration. -/
def implied? (m : Model) (d : ElementId) (r : SupertypeRole) : Option Specialization :=
  (m.library.pathFor? (m.metaclass d) r).bind fun path =>
    (m.find? path).bind fun t =>
      if t = d then none
      else some { general := t, kind := (m.metaclass d).generalKind, isImplied := true }

def missing? (m : Model) (d : ElementId) (r : SupertypeRole) : Option Diagnostic :=
  (m.library.pathFor? (m.metaclass d) r).bind fun path =>
    if (m.find? path).isNone then
      some ((Problem.missingSupertype path).diagnostic d (m.span d))
    else none

theorem SameNames.implied? (h : SameNames m n) : n.implied? = m.implied? := by
  funext d r
  simp only [Model.implied?, h.pathFor?, h.forest, h.find?]

theorem SameNames.missing? (h : SameNames m n) : n.missing? = m.missing? := by
  funext d r
  simp only [Model.missing?, h.pathFor?, h.forest, h.find?]

theorem addImplied_sameNames (m : Model) (d : ElementId) (r : SupertypeRole) :
    SameNames m (m.addImplied d r) := by
  rw [addImplied]
  split
  · exact .refl m
  · split
    · exact addProblem_sameNames ..
    · split
      · exact .refl m
      · exact specialize_sameNames ..

private theorem addImplied_get (m : Model) (d e : ElementId) (r : SupertypeRole) :
    (m.addImplied d r).specializations.get e =
      if d = e then (m.implied? d r).toList.foldl Specialization.record (m.specializations.get d)
      else m.specializations.get e := by
  rw [addImplied, implied?]
  cases hpath : m.library.pathFor? (m.metaclass d) r with
  | none => simp +contextual
  | some path =>
    cases hfind : m.find? path with
    | none => simp +contextual [hfind, addProblem]
    | some t =>
      by_cases ht : t = d
      · simp +contextual [hfind, ht]
      · simp [hfind, ht, specialize_get]

private theorem addImplied_report (m : Model) (d : ElementId) (r : SupertypeRole) :
    (m.addImplied d r).report.diagnostics =
      m.report.diagnostics ++ (m.missing? d r).toList := by
  rw [addImplied, missing?]
  cases hpath : m.library.pathFor? (m.metaclass d) r with
  | none => simp
  | some path =>
    cases hfind : m.find? path with
    | none => simp [hfind, addProblem, Report.add]
    | some t => by_cases ht : t = d <;> simp [hfind, ht, specialize]

private theorem foldl_addImplied_get (roles : List SupertypeRole) (m : Model) :
    (roles.foldl (·.addImplied d ·) m).specializations.get e =
      if d = e then (roles.filterMap (m.implied? d)).foldl Specialization.record
        (m.specializations.get d)
      else m.specializations.get e := by
  induction roles generalizing m with
  | nil => simp +contextual
  | cons r roles ih =>
    rw [List.foldl_cons, ih, (addImplied_sameNames m d r).implied?]
    simp only [addImplied_get]
    by_cases hde : d = e
    · cases hr : m.implied? d r <;> simp [hde ▸ hr, hde]
    · simp [hde]

private theorem foldl_addImplied_report (roles : List SupertypeRole) (m : Model) :
    (roles.foldl (·.addImplied d ·) m).report.diagnostics =
      m.report.diagnostics ++ roles.filterMap (m.missing? d) := by
  induction roles generalizing m with
  | nil => simp
  | cons r roles ih =>
    rw [List.foldl_cons, ih, (addImplied_sameNames m d r).missing?, addImplied_report]
    cases hr : m.missing? d r <;> simp [hr]

def SameButMemos (m n : Model) : Prop :=
  n = { m with memos := n.memos }

theorem SameButMemos.refl (m : Model) : SameButMemos m m := rfl

theorem SameButMemos.trans {k : Model} (h : SameButMemos m n) (h' : SameButMemos n k) :
    SameButMemos m k := by
  rw [SameButMemos, h', h]

theorem SameButMemos.sameNames (h : SameButMemos m n) : SameNames m n := by
  rw [h]
  exact ⟨rfl, rfl, rfl, rfl⟩

theorem SameButMemos.sameEdges (h : SameButMemos m n) : SameEdges m n := by
  rw [h]
  exact ⟨rfl, rfl, rfl, rfl⟩

theorem askCategories_sameButMemos (m : Model) (d : ElementId) :
    SameButMemos m (m.askCategories d).2 := by
  rw [askCategories]
  split <;> rfl

theorem askOwnerCategories_sameButMemos (m : Model) (d : ElementId) :
    SameButMemos m (m.askOwnerCategories d).2 := by
  rw [askOwnerCategories]
  split
  · exact askCategories_sameButMemos ..
  · rfl

theorem askRole_sameButMemos (m : Model) (d : ElementId) : SameButMemos m (m.askRole d).2 := by
  have howner := askOwnerCategories_sameButMemos m d
  simp only [askRole]
  split
  · rfl
  · split
    · rfl
    · split
      · exact howner
      · exact howner
      · exact howner.trans (askCategories_sameButMemos ..)

theorem askRoles_sameButMemos (m : Model) (d : ElementId) : SameButMemos m (m.askRoles d).2 := by
  simp only [askRoles]
  split
  · rfl
  · exact askRole_sameButMemos m d

theorem addSupertypes_sameNames (m : Model) (d : ElementId) : SameNames m (m.addSupertypes d) := by
  rw [addSupertypes]
  split
  · exact (askRoles_sameButMemos m d).sameNames.trans
      (SameNames.foldl (fun m r => addImplied_sameNames m d r) _ _)
  · exact .refl m

theorem addSupertypes_get (hd : m.isType d) :
    (m.addSupertypes d).specializations.get e =
      if d = e then ((m.askRoles d).1.filterMap (m.implied? d)).foldl Specialization.record
        (m.specializations.get d)
      else m.specializations.get e := by
  have hask := askRoles_sameButMemos m d
  rw [addSupertypes, if_pos hd]
  simp only [foldl_addImplied_get, hask.sameNames.implied?, hask.sameEdges.specializations]

theorem addSupertypes_report (hd : m.isType d) :
    (m.addSupertypes d).report.diagnostics =
      m.report.diagnostics ++ (m.askRoles d).1.filterMap (m.missing? d) := by
  have hask := askRoles_sameButMemos m d
  rw [addSupertypes, if_pos hd]
  simp only [foldl_addImplied_report, hask.sameNames.missing?, hask.sameEdges.report]

theorem addSupertypes_of_not_isType (hd : ¬ m.isType d) : m.addSupertypes d = m := by
  rw [addSupertypes, if_neg hd]

theorem subset_addSupertypes (m : Model) (d e : ElementId) :
    m.specializations.get e ⊆ (m.addSupertypes d).specializations.get e := by
  intro s hs
  by_cases hd : m.isType d
  · rw [addSupertypes_get hd]
    split
    · subst e
      exact Specialization.mem_foldl_record hs _
    · exact hs
  · rwa [addSupertypes_of_not_isType hd]

def importDiagnostic? (m : Model) (d : ElementId) (i : Import) : Option Diagnostic :=
  (m.importProblem? d i).map (·.diagnostic d (i.span.or (m.span d)))

theorem SameNames.importDiagnostic? (h : SameNames m n) :
    n.importDiagnostic? = m.importDiagnostic? := by
  funext d i
  simp only [Model.importDiagnostic?, h.importProblem?, h.forest]

theorem checkImports_sameNames (m : Model) (d : ElementId) : SameNames m (m.checkImports d) :=
  ⟨rfl, rfl, rfl, rfl⟩

theorem checkImports_report (m : Model) (d : ElementId) :
    (m.checkImports d).report.diagnostics =
      m.report.diagnostics ++ (m.imports d).filterMap (m.importDiagnostic? d) := rfl

end Model
end Kerml
