import Kerml.Proofs.Link.Steps
import Mathlib.Data.List.TakeWhile

/-!
# The phases of linking

Requests are bound and carried out, names are taken, supertypes are added and imports are checked,
each for all declarations in the order of the text.
-/
namespace Kerml.Model

variable {m : Model} {d e : ElementId} {ds : List ElementId} {step : Model → ElementId → Model}

theorem foldl_get_of_notMem (hother : ∀ n d, d ≠ e →
      (step n d).specializations.get e = n.specializations.get e) (he : e ∉ ds) (m : Model) :
    (ds.foldl step m).specializations.get e = m.specializations.get e := by
  induction ds generalizing m with
  | nil => rfl
  | cons d ds ih =>
    rw [List.mem_cons, not_or] at he
    rw [List.foldl_cons, ih he.2, hother m d (Ne.symm he.1)]

theorem notMem_takeWhile_ne (d : ElementId) (ds : List ElementId) : d ∉ ds.takeWhile (· ≠ d) :=
  fun h => by simpa using List.mem_takeWhile_imp h

/-- What a phase that is about one declaration after the other does for one of them is done when it
is its turn. -/
theorem foldl_get_of_mem (hother : ∀ n d, d ≠ e →
      (step n d).specializations.get e = n.specializations.get e) (hn : ds.Nodup) (he : e ∈ ds)
    (m : Model) : (ds.foldl step m).specializations.get e =
      (step ((ds.takeWhile (· ≠ e)).foldl step m) e).specializations.get e := by
  induction ds generalizing m with
  | nil => exact absurd he List.not_mem_nil
  | cons d ds ih =>
    obtain ⟨hd, hn⟩ := List.nodup_cons.1 hn
    by_cases hde : d = e
    · subst hde
      simp [foldl_get_of_notMem hother hd]
    · have he : e ∈ ds := (List.mem_cons.1 he).resolve_left (Ne.symm hde)
      simpa [hde] using ih hn he (step m d)

theorem foldl_report {problems : Model → ElementId → List Diagnostic}
    (hstep : ∀ n d, (step n d).report.diagnostics = n.report.diagnostics ++ problems n d)
    (hn : ds.Nodup) (m : Model) :
    (ds.foldl step m).report.diagnostics = m.report.diagnostics ++
      ds.flatMap fun d => problems ((ds.takeWhile (· ≠ d)).foldl step m) d := by
  induction ds generalizing m with
  | nil => simp
  | cons d ds ih =>
    obtain ⟨hd, hn⟩ := List.nodup_cons.1 hn
    have hlater : ∀ e ∈ ds, (((d :: ds).takeWhile (· ≠ e)).foldl step m) =
        (ds.takeWhile (· ≠ e)).foldl step (step m d) := by
      intro e he
      have hde : d ≠ e := fun h => hd (h ▸ he)
      simp [hde]
    rw [List.foldl_cons, ih hn, hstep, List.flatMap_cons, List.append_assoc]
    congr 2
    · simp
    · exact List.flatMap_congr fun e he => by rw [hlater e he]

def requested (m : Model) : Model :=
  m.preorder.foldl applyRequests m.unlinked

/-- The model in which besides all names are taken. -/
def named (m : Model) : Model :=
  m.requested.takeNames m.preorder

/-- The model in which besides the declarations before the given one have their supertypes. -/
def supplied (m : Model) (d : ElementId) : Model :=
  (m.preorder.takeWhile (· ≠ d)).foldl addSupertypes m.named

/-- The model in which besides all types have their supertypes. -/
def complete (m : Model) : Model :=
  m.preorder.foldl addSupertypes m.named

theorem requested_sameNames (m : Model) : SameNames m.unlinked m.requested :=
  SameNames.foldl applyRequests_sameNames m.preorder m.unlinked

theorem named_sameEdges (m : Model) : SameEdges m.requested m.named :=
  takeNames_sameEdges m.requested m.preorder

theorem complete_sameNames (m : Model) : SameNames m.named m.complete :=
  SameNames.foldl addSupertypes_sameNames m.preorder m.named

theorem link_sameNames (m : Model) : SameNames m.named m.link := by
  have hchecked := SameNames.foldl checkImports_sameNames m.preorder m.complete
  exact ((complete_sameNames m).trans hchecked).trans ⟨rfl, rfl, rfl, rfl⟩

theorem named_forest (m : Model) : m.named.toForest = m.toForest :=
  (named_sameEdges m).forest.trans (requested_sameNames m).forest

theorem link_forest (m : Model) : m.link.toForest = m.toForest :=
  (link_sameNames m).forest.trans (named_forest m)

/-- The specializations that are written down for a type: of the requests that lead to the same
declaration the first one, as they are bound before any names are taken. -/
def writtenEdges (m : Model) (d : ElementId) : List Specialization :=
  distinctBy (·.general) ((m.requests d).filterMap (m.unlinked.asked? d))

/-- The roles in which a type takes supertypes from the library. -/
def roles (m : Model) (d : ElementId) : List SupertypeRole :=
  (if (m.writtenEdges d).any fun s =>
      s.kind.includes (m.metaclass d).generalKind || s.kind.includes .conjugation
    then [] else [((m.supplied d).askRole d).1]) ++
  if m.isParticipant d then [.participant] else []

/-- The specializations that the library implies for a type besides those that are written down. -/
def impliedEdges (m : Model) (d : ElementId) : List Specialization :=
  (distinctBy (·.general) ((m.roles d).filterMap (m.link.implied? d))).filter fun s =>
    (m.writtenEdges d).all (·.general != s.general)

theorem writtenEdges_eq_nil (h : m.WellFormed) (hd : ¬ m.isType d) : m.writtenEdges d = [] := by
  have hrequests : m.requests d = [] :=
    List.eq_nil_iff_forall_not_mem.2 fun r hr => hd (h.isType_of_request hr)
  rw [writtenEdges, hrequests]
  rfl

theorem unlinked_sameNames_before (m : Model) (ds : List ElementId) :
    SameNames m.unlinked (ds.foldl applyRequests m.unlinked) :=
  SameNames.foldl applyRequests_sameNames ds m.unlinked

theorem applyRequests_get_of_ne (n : Model) (d : ElementId) (h : d ≠ e) :
    (n.applyRequests d).specializations.get e = n.specializations.get e := by
  rw [applyRequests_get, if_neg h]

theorem addSupertypes_get_of_ne (n : Model) (d : ElementId) (h : d ≠ e) :
    (n.addSupertypes d).specializations.get e = n.specializations.get e := by
  by_cases hd : n.isType d
  · rw [addSupertypes_get hd, if_neg h]
  · rw [addSupertypes_of_not_isType hd]

theorem SameNames.asked? {n : Model} (h : SameNames m n) : n.asked? = m.asked? := by
  funext d r
  rw [Model.asked?, Model.asked?, h.bind?]

theorem SameNames.unbound? {n : Model} (h : SameNames m n) : n.unbound? = m.unbound? := by
  funext d r
  simp only [Model.unbound?, h.bind?, h.forest]

theorem requested_get (h : m.WellFormed) (hd : d ∈ m.preorder) :
    m.requested.specializations.get d = m.writtenEdges d := by
  have hempty : m.unlinked.specializations.get d = [] := rfl
  have hbefore := unlinked_sameNames_before m (m.preorder.takeWhile (· ≠ d))
  rw [requested, foldl_get_of_mem applyRequests_get_of_ne h.preorder_nodup hd, applyRequests_get,
    if_pos rfl, hbefore.asked?, hbefore.forest,
    foldl_get_of_notMem applyRequests_get_of_ne (notMem_takeWhile_ne d m.preorder), hempty,
    Specialization.foldl_record _ _ (by simp)]
  rfl

private theorem requested_report (h : m.WellFormed) : m.requested.report.diagnostics =
    m.preorder.flatMap fun d => (m.requests d).filterMap (m.unlinked.unbound? d) := by
  rw [requested, foldl_report applyRequests_report h.preorder_nodup]
  have hempty : m.unlinked.report.diagnostics = [] := rfl
  rw [hempty, List.nil_append]
  refine List.flatMap_congr fun d _ => ?_
  have hbefore := unlinked_sameNames_before m (m.preorder.takeWhile (· ≠ d))
  rw [hbefore.unbound?, hbefore.forest]
  rfl

theorem supplied_sameNames (m : Model) (d : ElementId) : SameNames m.link (m.supplied d) :=
  (link_sameNames m).symm.trans (SameNames.foldl addSupertypes_sameNames _ m.named)

theorem supplied_forest (m : Model) (d : ElementId) : (m.supplied d).toForest = m.toForest :=
  (supplied_sameNames m d).forest.trans (link_forest m)

theorem supplied_get (h : m.WellFormed) (hd : d ∈ m.preorder) :
    (m.supplied d).specializations.get d = m.writtenEdges d := by
  rw [supplied, foldl_get_of_notMem addSupertypes_get_of_ne (notMem_takeWhile_ne d m.preorder),
    (named_sameEdges m).specializations, requested_get h hd]

private theorem isImplied_of_mem_writtenEdges {s : Specialization} (hs : s ∈ m.writtenEdges d) :
    s.isImplied = false := by
  obtain ⟨r, -, hasked⟩ := List.mem_filterMap.1 (mem_of_mem_distinctBy hs)
  obtain ⟨t, -, rfl⟩ := Option.map_eq_some_iff.1 hasked
  rfl

/-- Only what is written down counts as a written supertype. -/
theorem hasWrittenSupertype_of_get {n : Model} {implied : List Specialization}
    (hforest : n.toForest = m.toForest)
    (hget : n.specializations.get d = m.writtenEdges d ++ implied)
    (himplied : ∀ s ∈ implied, s.isImplied) :
    n.hasWrittenSupertype d = (m.writtenEdges d).any fun s =>
      s.kind.includes (m.metaclass d).generalKind || s.kind.includes .conjugation := by
  have hwritten : ∀ query : SpecializationKind,
      Specialization.hasWritten (n.specializations.get d) query ↔
        ∃ s ∈ m.writtenEdges d, s.kind.includes query := by
    intro query
    rw [Specialization.hasWritten, hget, List.any_eq_true]
    constructor
    · rintro ⟨s, hs, hkind⟩
      rw [Bool.and_eq_true] at hkind
      rcases List.mem_append.1 hs with hs | hs
      · exact ⟨s, hs, hkind.2⟩
      · simp [himplied s hs] at hkind
    · rintro ⟨s, hs, hkind⟩
      exact ⟨s, List.mem_append_left _ hs, by simp [isImplied_of_mem_writtenEdges hs, hkind]⟩
  rw [hasWrittenSupertype, Bool.eq_iff_iff, Bool.or_eq_true, hwritten, hwritten, hforest]
  simp only [List.any_eq_true, Bool.or_eq_true, and_or_left, exists_or]

private theorem hasWrittenSupertype_supplied (h : m.WellFormed) (hd : d ∈ m.preorder) :
    (m.supplied d).hasWrittenSupertype d = (m.writtenEdges d).any fun s =>
      s.kind.includes (m.metaclass d).generalKind || s.kind.includes .conjugation := by
  have hget : (m.supplied d).specializations.get d = m.writtenEdges d ++ [] := by
    rw [supplied_get h hd, List.append_nil]
  exact hasWrittenSupertype_of_get (supplied_forest m d) hget fun s hs => absurd hs List.not_mem_nil

theorem isParticipant_of_forest {n : Model} (h : n.toForest = m.toForest) (d : ElementId) :
    n.isParticipant d = m.isParticipant d := by
  simp only [isParticipant, h]

theorem askRoles_supplied (h : m.WellFormed) (hd : d ∈ m.preorder) :
    ((m.supplied d).askRoles d).1 = m.roles d := by
  have hforest := supplied_forest m d
  have hasked := (askRole_sameButMemos (m.supplied d) d).sameEdges.forest
  rw [askRoles, roles, ← hasWrittenSupertype_supplied h hd]
  by_cases hw : (m.supplied d).hasWrittenSupertype d
  · simp only [if_pos hw, isParticipant_of_forest hforest]
  · simp only [if_neg hw, isParticipant_of_forest (hasked.trans hforest)]

theorem isImplied_of_implied? {r : SupertypeRole} {s : Specialization}
    (hs : m.implied? d r = some s) : s.isImplied := by
  obtain ⟨path, -, hpath⟩ := Option.bind_eq_some_iff.1 hs
  obtain ⟨t, -, ht⟩ := Option.bind_eq_some_iff.1 hpath
  split at ht
  · cases ht
  · cases ht
    rfl

theorem kind_of_implied? {r : SupertypeRole} {s : Specialization}
    (hs : m.implied? d r = some s) : s.kind = (m.metaclass d).generalKind := by
  obtain ⟨path, -, hpath⟩ := Option.bind_eq_some_iff.1 hs
  obtain ⟨t, -, ht⟩ := Option.bind_eq_some_iff.1 hpath
  split at ht
  · cases ht
  · cases ht
    rfl

theorem isImplied_of_mem_impliedEdges {s : Specialization} (hs : s ∈ m.impliedEdges d) :
    s.isImplied := by
  obtain ⟨r, -, himplied⟩ := List.mem_filterMap.1
    (mem_of_mem_distinctBy (List.mem_filter.1 hs).1)
  exact isImplied_of_implied? himplied

theorem foldl_record_implied (m : Model) (d : ElementId) :
    ((m.roles d).filterMap (m.link.implied? d)).foldl Specialization.record (m.writtenEdges d) =
      m.writtenEdges d ++ m.impliedEdges d := by
  have hdistinct : ((m.writtenEdges d).map (·.general)).Nodup := nodup_map_distinctBy _
  rw [Specialization.foldl_record _ _ hdistinct, distinctBy_append, distinctBy_eq_self hdistinct]
  rfl

theorem complete_get (h : m.WellFormed) (hd : m.isType d) :
    m.complete.specializations.get d = m.writtenEdges d ++ m.impliedEdges d := by
  have hmem : d ∈ m.preorder := h.mem_preorder_iff.2 (Forest.contains_of_isType hd)
  have hsame := supplied_sameNames m d
  have htype : (m.supplied d).isType d := by rwa [supplied_forest]
  rw [complete, foldl_get_of_mem addSupertypes_get_of_ne h.preorder_nodup hmem]
  change ((m.supplied d).addSupertypes d).specializations.get d = _
  rw [addSupertypes_get htype, if_pos rfl, askRoles_supplied h hmem, supplied_get h hmem,
    hsame.implied?, foldl_record_implied]

theorem addSupertypes_report_of (n : Model) (d : ElementId) :
    (n.addSupertypes d).report.diagnostics = n.report.diagnostics ++
      if n.isType d then (n.askRoles d).1.filterMap (n.missing? d) else [] := by
  by_cases hd : n.isType d
  · rw [addSupertypes_report hd, if_pos hd]
  · rw [addSupertypes_of_not_isType hd, if_neg hd, List.append_nil]

theorem complete_report (h : m.WellFormed) : m.complete.report.diagnostics =
    (m.preorder.flatMap fun d => (m.requests d).filterMap (m.unlinked.unbound? d)) ++
    m.preorder.flatMap fun d =>
      if m.isType d then (m.roles d).filterMap (m.link.missing? d) else [] := by
  rw [complete, foldl_report addSupertypes_report_of h.preorder_nodup,
    (named_sameEdges m).report, requested_report h]
  congr 1
  refine List.flatMap_congr fun d hd => ?_
  have hsame := supplied_sameNames m d
  change (if (m.supplied d).isType d then
    ((m.supplied d).askRoles d).1.filterMap ((m.supplied d).missing? d) else []) = _
  rw [askRoles_supplied h hd, hsame.missing?, supplied_forest]

theorem link_get (m : Model) (d : ElementId) :
    m.link.specializations.get d = m.complete.specializations.get d := by
  have hchecked : ∀ (ds : List ElementId) (n : Model),
      (ds.foldl checkImports n).specializations = n.specializations := by
    intro ds
    induction ds with
    | nil => exact fun n => rfl
    | cons d ds ih => exact fun n => ih (n.checkImports d)
  exact congrArg (·.get d) (hchecked m.preorder m.complete)

theorem link_report (h : m.WellFormed) : m.link.report.diagnostics =
    m.complete.report.diagnostics ++
      m.preorder.flatMap fun d => (m.imports d).filterMap (m.link.importDiagnostic? d) := by
  change (m.preorder.foldl checkImports m.complete).report.diagnostics = _
  rw [foldl_report checkImports_report h.preorder_nodup]
  congr 1
  refine List.flatMap_congr fun d _ => ?_
  have hsame : SameNames m.link ((m.preorder.takeWhile (· ≠ d)).foldl checkImports m.complete) :=
    (link_sameNames m).symm.trans ((complete_sameNames m).trans
      (SameNames.foldl checkImports_sameNames _ m.complete))
  rw [hsame.importDiagnostic?, hsame.forest, link_forest]

end Kerml.Model
