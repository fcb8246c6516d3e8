import Kerml.Proofs.Guarded.Categories
import Kerml.Proofs.Guarded.Lookup
import Kerml.Proofs.Relink.Steps

/-!
# Linking without unknown handles

Each phase goes through known declarations and leaves all that is held known for the next one.
-/
namespace Kerml.Guarded

open Model (Coherent)

def forgetNames (m : Model) (d : ElementId) : Option Model := do
  let _ ← subtree m d
  return m.forgetNames d

def bind (m : Model) (d : ElementId) (r : Request) : Option (Option ElementId) := do
  match r.target with
  | .element t => return some t
  | .path path => return (← lookup m (← m.facts? d).owner path).found?

def applyRequest (m : Model) (d : ElementId) (r : Request) : Option ElementId → Option Model
  | some t => do
    let _ ← m.facts? d
    return m.specialize d { general := t, kind := r.kind, visibility := r.visibility }
  | none => do
    let x ← m.facts? d
    return m.addProblem d (r.span.or x.span)
      (.undefinedReference (Model.referenceText r.target))

def applyRequests (m : Model) (d : ElementId) : Option Model := do
  let bound ← (← m.facts? d).requests.mapM fun r => do return (r, ← bind m d r)
  bound.foldlM (fun m b => applyRequest m d b.1 b.2) m

def redefinedName (m : Model) (d : ElementId) : Option (Option String) := do
  match (Specialization.matching (← m.facts? d).specializations .redefinition).head? with
  | none => return none
  | some s => return (← m.facts? s.general).effectiveName

def takeName (m : Model) (d : ElementId) : Option Model := do
  let x ← m.facts? d
  if x.metaclass.isFeature && x.effectiveName.isNone then
    match ← redefinedName m d with
    | none => return m
    | some name => forgetNames { m with takenNames := m.takenNames.put d (some name) } d
  else return m

def takeNames (m : Model) (ds : List ElementId) : Option Model := do
  let next ← ds.foldlM takeName m
  if _h : next.namelessCount < m.namelessCount then takeNames next ds else return next
termination_by m.namelessCount

def addImplied (m : Model) (d : ElementId) (r : SupertypeRole) : Option Model := do
  let x ← m.facts? d
  match m.library.pathFor? x.metaclass r with
  | none => return m
  | some path =>
    match ← find m path with
    | none => return m.addProblem d x.span (.missingSupertype path)
    | some t =>
      if t = d then return m
      else
        return m.specialize d { general := t, kind := x.metaclass.generalKind, isImplied := true }

def addSupertypes (m : Model) (d : ElementId) : Option Model := do
  if (← m.facts? d).metaclass.isType then
    let (roles, m) ← askRoles m d
    roles.foldlM (addImplied · d ·) m
  else return m

def importProblem (m : Model) (d : ElementId) (i : Import) : Option (Option Problem) := do
  match ← lookup m (some d) i.path with
  | .found _ => return none
  | .hidden h => return some (.hiddenImport i.text (← qualifiedName m h))
  | .missing => return some (.unresolvedImport i.text)

def checkImports (m : Model) (d : ElementId) : Option Model := do
  let x ← m.facts? d
  let found ← x.imports.filterMapM fun i => do
    return (← importProblem m d i).map (·.diagnostic d (i.span.or x.span))
  return { m with report := m.report.addAll found }

def link (m : Model) : Option Model := do
  let order ← preorder m.unlinked
  let m ← order.foldlM applyRequests m.unlinked
  let m ← takeNames m order
  let m ← order.foldlM addSupertypes m
  let m ← order.foldlM checkImports m
  return { m with memos := ∅ }

def reset (m : Model) (d : ElementId) : Option (Except BuildError Model) := do
  if !m.contains d then return .error (.unknownElement d)
  else
    let _ ← subtree m d
    return .ok (m.cleared d)

def relink (m : Model) (d : ElementId) : Option (Except BuildError Model) := do
  if !m.contains d then return .error (.unknownElement d)
  else
    let m ← applyRequests m d
    let m ← takeNames m [d]
    let m ← addSupertypes m d
    let m ← checkImports m d
    let _ ← m.facts? d
    return .ok (m.forgetCategories d)

variable {m n : Model} {d : ElementId}

structure Carries (m n : Model) : Prop where
  coherent : Coherent n
  forest : n.toForest = m.toForest

namespace Carries

theorem refl (h : Coherent m) : Carries m m := ⟨h, rfl⟩

theorem contains (h : Carries m n) (hd : m.contains d) : n.contains d := by
  rw [h.forest]
  exact hd

theorem applyRequests (h : Carries m n) (d : ElementId) : Carries m (n.applyRequests d) :=
  ⟨h.coherent.applyRequests d, (Model.applyRequests_sameNames n d).forest.trans h.forest⟩

theorem takeName (h : Carries m n) (d : ElementId) : Carries m (n.takeName d) :=
  have hsame := Model.takeName_sameEdges n d
  ⟨h.coherent.of_sameEdges hsame, hsame.forest.trans h.forest⟩

theorem takeNames (h : Carries m n) (ds : List ElementId) : Carries m (n.takeNames ds) :=
  ⟨h.coherent.takeNames ds, (Model.takeNames_sameEdges n ds).forest.trans h.forest⟩

theorem addSupertypes (h : Carries m n) (d : ElementId) : Carries m (n.addSupertypes d) :=
  ⟨h.coherent.addSupertypes d, (Model.addSupertypes_sameNames n d).forest.trans h.forest⟩

theorem checkImports (h : Carries m n) (d : ElementId) : Carries m (n.checkImports d) :=
  ⟨h.coherent.checkImports d, h.forest⟩

/-- A run through known declarations has an answer if each of its steps has one. -/
theorem foldlM_eq {step : Model → ElementId → Option Model} {next : Model → ElementId → Model}
    (h : Carries m n)
    (hstep : ∀ {k : Model} {d : ElementId}, Coherent k → k.contains d → step k d = some (next k d))
    (hnext : ∀ {k : Model}, Carries m k → ∀ d, Carries m (next k d)) {ds : List ElementId}
    (hds : ∀ d ∈ ds, m.contains d) :
    ds.foldlM step n = some (ds.foldl next n) ∧ Carries m (ds.foldl next n) :=
  foldlM_eq_some (Carries m)
    (fun _ hk d hd => ⟨hstep hk.coherent (hk.contains (hds d hd)), hnext hk d⟩) h

end Carries

private theorem forgetNames_eq (h : m.WellFormed) (hd : m.contains d) :
    forgetNames m d = some (m.forgetNames d) := by
  rw [forgetNames, subtree_eq h hd]
  rfl

private theorem bind_eq (h : m.WellFormed) (hd : m.contains d) (r : Request) :
    bind m d r = some (m.bind? d r) := by
  have hsite : (m.owner d).all m.contains := by
    cases ho : m.owner d with
    | none => rfl
    | some o => exact h.contains_owner ho
  rw [bind, Model.bind?]
  cases r.target with
  | element t => rfl
  | path path =>
    rw [Model.facts?_eq hd]
    simp only [Option.bind_eq_bind, Option.bind_some, Model.facts, lookup_eq h hsite]
    rfl

private theorem applyRequest_eq (hd : m.contains d) (r : Request) (t : Option ElementId) :
    applyRequest m d r t = some (m.applyRequest d r t) := by
  cases t with
  | none => rw [applyRequest, Model.facts?_eq hd]; rfl
  | some t => rw [applyRequest, Model.facts?_eq hd]; rfl

theorem applyRequests_eq (h : m.WellFormed) (hd : m.contains d) :
    applyRequests m d = some (m.applyRequests d) := by
  have hbound : ((m.requests d).mapM fun r => do return (r, ← bind m d r)) =
      some ((m.requests d).map fun r => (r, m.bind? d r)) :=
    mapM_eq_some fun r _ => by rw [bind_eq h hd]; rfl
  have hstep : ∀ n : Model, n.toForest = m.toForest →
      ∀ b ∈ (m.requests d).map fun r => (r, m.bind? d r),
        applyRequest n d b.1 b.2 = some (n.applyRequest d b.1 b.2) ∧
          (n.applyRequest d b.1 b.2).toForest = m.toForest := by
    intro n hn b _
    have hsame := Model.applyRequest_sameNames n d b.1 b.2
    exact ⟨applyRequest_eq (by rw [hn]; exact hd) b.1 b.2, hsame.forest.trans hn⟩
  rw [applyRequests, Model.facts?_eq hd, Model.applyRequests]
  simp only [Option.bind_eq_bind, Option.bind_some, Model.facts] at hbound ⊢
  rw [hbound, Option.bind_some]
  exact (foldlM_eq_some (fun n : Model => n.toForest = m.toForest) hstep rfl).1

private theorem redefinedName_eq (h : Coherent m) (hd : m.contains d) :
    redefinedName m d = some (m.redefinedName? d) := by
  rw [redefinedName, Model.facts?_eq hd, Model.redefinedName?, Model.specializationsOf]
  simp only [Option.bind_eq_bind, Option.bind_some, Model.facts]
  cases hfirst : (Specialization.matching (m.specializations.get d) .redefinition).head? with
  | none => rfl
  | some s =>
    have hs : s ∈ m.specializations.get d :=
      (List.mem_filter.1 (List.mem_of_head? hfirst)).1
    simp only [Model.facts?_eq (h.contains_general hs)]
    rfl

private theorem takeName_eq (h : Coherent m) (hd : m.contains d) :
    takeName m d = some (m.takeName d) := by
  rw [takeName, Model.facts?_eq hd, Model.takeName, Model.isNameless]
  simp only [Option.bind_eq_bind, Option.bind_some, Model.facts, redefinedName_eq h hd]
  split
  · cases m.redefinedName? d with
    | none => rfl
    | some name => exact forgetNames_eq h.forest hd
  · rfl

theorem takeNamesOnce_eq (h : Coherent m) {ds : List ElementId} (hds : ∀ d ∈ ds, m.contains d) :
    ds.foldlM takeName m = some (m.takeNamesOnce ds) :=
  (Carries.refl h).foldlM_eq takeName_eq Carries.takeName hds |>.1

theorem takeNames_eq (h : Coherent m) {ds : List ElementId} (hds : ∀ d ∈ ds, m.contains d) :
    takeNames m ds = some (m.takeNames ds) := by
  fun_induction Model.takeNames m ds with
  | case1 m next hless ih =>
    have hsame := Model.takeNamesOnce_sameEdges m ds
    have hnext := ih (h.of_sameEdges hsame) fun d hd => by rw [hsame.forest]; exact hds d hd
    rw [takeNames, bind_of_eq_some (takeNamesOnce_eq h hds), dif_pos hless,
      hnext]
  | case2 m next hless =>
    rw [takeNames, bind_of_eq_some (takeNamesOnce_eq h hds), dif_neg hless]
    rfl

private theorem addImplied_eq (h : m.WellFormed) (hd : m.contains d) (r : SupertypeRole) :
    addImplied m d r = some (m.addImplied d r) := by
  rw [addImplied, Model.facts?_eq hd, Model.addImplied]
  simp only [Option.bind_eq_bind, Option.bind_some, Model.facts]
  cases m.library.pathFor? (m.metaclass d) r with
  | none => rfl
  | some path =>
    simp only [find_eq h, Option.bind_some]
    cases m.find? path with
    | none => rfl
    | some t =>
      simp only
      split <;> rfl

theorem addSupertypes_eq (h : Coherent m) (hd : m.contains d) :
    addSupertypes m d = some (m.addSupertypes d) := by
  rw [addSupertypes, bind_of_eq_some (Model.facts?_eq hd), Model.addSupertypes]
  by_cases htype : m.isType d
  · have hkind : (m.facts d).metaclass.isType := htype
    have hsame := Model.askRoles_sameButMemos m d
    rw [if_pos hkind, if_pos htype, bind_of_eq_some (askRoles_eq h hd)]
    generalize m.askRoles d = asked at hsame ⊢
    have hforest : asked.2.toForest = m.toForest := hsame.sameEdges.forest
    have hstep : ∀ n : Model, n.toForest = m.toForest → ∀ r ∈ asked.1,
        addImplied n d r = some (n.addImplied d r) ∧ (n.addImplied d r).toForest = m.toForest := by
      intro n hn r _
      refine ⟨addImplied_eq ?_ ?_ r, (Model.addImplied_sameNames n d r).forest.trans hn⟩
      · rw [hn]
        exact h.forest
      · rw [hn]
        exact hd
    exact (foldlM_eq_some (fun n : Model => n.toForest = m.toForest) hstep hforest).1
  · have hkind : ¬ (m.facts d).metaclass.isType := htype
    rw [if_neg hkind, if_neg htype]
    rfl

private theorem contains_of_descend_hidden (h : m.WellFormed) {site : Option ElementId} {c t : ElementId}
    {path : List String} (ht : m.descend site c path = .hidden t) : m.contains t := by
  induction path generalizing c with
  | nil => cases ht
  | cons name rest ih =>
    simp only [Model.descend] at ht
    split at ht
    · cases ht
    · rename_i member hmember
      split at ht
      · exact ih ht
      · cases ht
        exact Model.contains_of_memberNamed? h hmember

private theorem contains_of_lookup_hidden (h : m.WellFormed) {site : Option ElementId} {t : ElementId}
    {path : List String} (ht : m.lookup site path = .hidden t) : m.contains t := by
  cases path with
  | nil => cases ht
  | cons name rest =>
    simp only [Model.lookup] at ht
    split at ht
    · cases ht
    · exact contains_of_descend_hidden h ht

private theorem importProblem_eq (h : m.WellFormed) (hd : m.contains d) (i : Import) :
    importProblem m d i = some (m.importProblem? d i) := by
  have hsite : (some d).all m.contains := hd
  rw [importProblem, bind_of_eq_some (lookup_eq h hsite i.path), Model.importProblem?]
  cases hlookup : m.lookup (some d) i.path with
  | found t => rfl
  | missing => rfl
  | hidden t =>
    simp only [qualifiedName_eq h (contains_of_lookup_hidden h hlookup)]
    rfl

theorem checkImports_eq (h : m.WellFormed) (hd : m.contains d) :
    checkImports m d = some (m.checkImports d) := by
  have hfound : ((m.imports d).filterMapM fun i => do
      return (← importProblem m d i).map (·.diagnostic d (i.span.or (m.span d)))) =
      some ((m.imports d).filterMap fun i =>
        (m.importProblem? d i).map (·.diagnostic d (i.span.or (m.span d)))) :=
    filterMapM_eq_some fun i _ => by rw [importProblem_eq h hd]; rfl
  rw [checkImports, Model.facts?_eq hd, Option.bind_eq_bind, Option.bind_some]
  simp only [Model.facts]
  rw [hfound]
  rfl

theorem link_eq (h : Coherent m) : link m = some m.link := by
  have horder : ∀ d ∈ m.preorder, m.contains d := fun d hd => h.forest.mem_preorder_iff.1 hd
  have hunlinked : Carries m m.unlinked := ⟨h.unlinked, rfl⟩
  obtain ⟨hrequests, hrequested⟩ := hunlinked.foldlM_eq
    (fun hk hd => applyRequests_eq hk.forest hd) Carries.applyRequests horder
  have hnames := takeNames_eq hrequested.coherent fun d hd => hrequested.contains (horder d hd)
  obtain ⟨hsupertypes, hsupplied⟩ := (hrequested.takeNames m.preorder).foldlM_eq
    addSupertypes_eq Carries.addSupertypes horder
  have himports := (hsupplied.foldlM_eq
    (fun hk hd => checkImports_eq hk.forest hd) Carries.checkImports horder).1
  have hpreorder : preorder m.unlinked = some m.preorder := preorder_eq h.unlinked.forest
  rw [link, bind_of_eq_some hpreorder, bind_of_eq_some hrequests, bind_of_eq_some hnames,
    bind_of_eq_some hsupertypes, bind_of_eq_some himports]
  rfl

theorem reset_eq (h : m.WellFormed) (d : ElementId) : reset m d = some (m.reset d) := by
  by_cases hd : m.contains d
  · rw [Model.reset_eq_ok_iff.2 ⟨hd, rfl⟩, reset, subtree_eq h hd]
    simp only [hd, Bool.not_true, Bool.false_eq_true, if_false]
    rfl
  · rw [reset, Model.reset]
    simp only [hd, Bool.not_false, if_true]
    rfl

theorem relink_eq (h : Coherent m) (d : ElementId) : relink m d = some (m.relink d) := by
  rw [relink, Model.relink]
  by_cases hd : m.contains d
  · have hrequested := (Carries.refl h).applyRequests d
    have hnamed := hrequested.takeNames [d]
    have hsupplied := hnamed.addSupertypes d
    have hchecked := hsupplied.checkImports d
    have hnames := takeNames_eq hrequested.coherent fun e (he : e ∈ [d]) =>
      hrequested.contains (List.mem_singleton.1 he ▸ hd)
    simp only [hd, Bool.not_true, Bool.false_eq_true, if_false]
    rw [bind_of_eq_some (applyRequests_eq h.forest hd), bind_of_eq_some hnames,
      bind_of_eq_some (addSupertypes_eq hnamed.coherent (hnamed.contains hd)),
      bind_of_eq_some (checkImports_eq hsupplied.coherent.forest (hsupplied.contains hd)),
      bind_of_eq_some (Model.facts?_eq (hchecked.contains hd))]
    rfl
  · simp only [hd, Bool.not_false, if_true]
    rfl

end Kerml.Guarded
