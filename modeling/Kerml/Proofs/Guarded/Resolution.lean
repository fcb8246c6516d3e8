import Kerml.Check
import Kerml.Proofs.Guarded.Scope
import Kerml.Proofs.Resolution.Visible

/-!
# References and checks without unknown handles

Scopes show known declarations, so that each segment of a reference is looked up at a known one.
-/
namespace Kerml.Guarded

open Model (Coherent)

def resolveGlobal (m : Model) (name : String) : Option Resolution := do
  return .ofCandidates (← (← globals m).filterMapM fun d => do
    return if ← answersTo m d name then some d else none)

def resolveOutward (m : Model) (name : String) : List ElementId → Option Resolution
  | [] => resolveGlobal m name
  | d :: outer => do
    let _ ← m.facts? d
    match (← scope m .inside d).resolve name with
    | .notFound => resolveOutward m name outer
    | r => return r

def resolveSimple (m : Model) (d : ElementId) (name : String) : Option Resolution := do
  resolveOutward m name (← chain m d)

def resolveBelow (m : Model) (r : Resolution) : List String → Option Resolution
  | [] => some r
  | name :: rest =>
    match r with
    | .found d => do
      let _ ← m.facts? d
      resolveBelow m ((← scope m .outside d).resolve name) rest
    | r => some r

def resolvePath (m : Model) (d : ElementId) : List String → Option Resolution
  | [] => some .notFound
  | name :: rest => do resolveBelow m (← resolveSimple m d name) rest

def resolve (m : Model) (d : ElementId) (text : String) : Option Resolution :=
  match QualifiedName.parse? text with
  | none => some .notFound
  | some path => resolvePath m d path

def scopeProblems (m : Model) (d : ElementId) : Option (List Diagnostic) := do
  let x ← m.facts? d
  if x.members.isEmpty && x.imports.isEmpty && x.specializations.isEmpty then return []
  else return (← scope m .inside d).diagnostics

def allProblems (m : Model) : Option (List Diagnostic) := do
  return m.report.diagnostics ++ (← (← preorder m).flatMapM (scopeProblems m))

def check (m : Model) : Option (List Diagnostic) := do
  return (Report.mk (← allProblems m)).summary

def checkSome (m : Model) (wholeModel : Bool) (ds : List ElementId) : Option (List Diagnostic) := do
  let before ← if wholeModel then allProblems m else some []
  return (Report.mk (before ++ (← ds.flatMapM (scopeProblems m)))).summary

variable {m : Model} {d : ElementId}

theorem resolveGlobal_eq (h : m.WellFormed) (name : String) :
    resolveGlobal m name = some (m.resolveGlobal name) := by
  have hanswering : (m.globals.filterMapM fun d => do
      return if ← answersTo m d name then some d else none) =
      some (m.globals.filterMap fun d => if m.answersTo d name then some d else none) :=
    filterMapM_eq_some fun d hd => by
      rw [answersTo_eq (Model.contains_of_mem_globals h hd)]
      rfl
  rw [resolveGlobal, bind_of_eq_some (globals_eq h), hanswering,
    Model.resolveGlobal, ← List.filterMap_eq_filter]
  rfl

private theorem resolveOutward_eq (h : Coherent m) (name : String) {ds : List ElementId}
    (hds : ∀ d ∈ ds, m.contains d) :
    resolveOutward m name ds = some (m.resolveOutward name ds) := by
  induction ds with
  | nil => exact resolveGlobal_eq h.forest name
  | cons d outer ih =>
    rw [resolveOutward, Model.facts?_eq (hds d List.mem_cons_self), scope_eq h,
      Model.resolveOutward]
    simp only [Option.bind_eq_bind, Option.bind_some]
    cases (m.scope .inside d).resolve name with
    | found t => rfl
    | ambiguous ts => rfl
    | notFound => exact ih fun c hc => hds c (List.mem_cons_of_mem d hc)

theorem resolveSimple_eq (h : Coherent m) (hd : m.contains d) (name : String) :
    resolveSimple m d name = some (m.resolveSimple d name) := by
  rw [resolveSimple, chain_eq h.forest hd]
  exact resolveOutward_eq h name fun c hc => h.forest.contains_of_mem_ownerChain hd hc

/-- What a name stands for in a scope is known. -/
theorem contains_of_scope_resolve (h : Coherent m) {v : Viewpoint} {name : String} {t : ElementId}
    (ht : (m.scope v d).resolve name = .found t) : m.contains t := by
  obtain ⟨e, he, rfl⟩ := Scope.exists_entry_of_resolve ht
  obtain ⟨c, hc, hce, -⟩ := Model.exists_candidate_of_mem_scope he
  have hd : m.contains d := by
    by_contra hunknown
    rw [Model.scope, if_neg hunknown] at he
    cases he
  rw [← hce]
  exact contains_of_mem_candidates h hd hc

private theorem contains_of_resolveOutward (h : Coherent m) {name : String} {ds : List ElementId}
    {t : ElementId} (ht : m.resolveOutward name ds = .found t) : m.contains t := by
  induction ds with
  | nil =>
    have hone := Resolution.eq_singleton_of_ofCandidates ht
    have hmem : t ∈ m.globals.filter (m.answersTo · name) := hone ▸ List.mem_singleton_self t
    exact Model.contains_of_mem_globals h.forest (List.mem_filter.1 hmem).1
  | cons d outer ih =>
    rw [Model.resolveOutward] at ht
    split at ht
    · exact ih ht
    · exact contains_of_scope_resolve h ht

/-- Following a reference from what is known comes across known declarations only. -/
theorem resolveBelow_eq (h : Coherent m) {r : Resolution} (hr : ∀ t, r = .found t → m.contains t)
    (path : List String) : resolveBelow m r path = some (m.resolveBelow r path) := by
  induction path generalizing r with
  | nil => rfl
  | cons name rest ih =>
    cases r with
    | found d =>
      rw [resolveBelow, Model.facts?_eq (hr d rfl), scope_eq h, Model.resolveBelow]
      exact ih fun t ht => contains_of_scope_resolve h ht
    | ambiguous ds => rfl
    | notFound => rfl

private theorem resolvePath_eq (h : Coherent m) (hd : m.contains d) (path : List String) :
    resolvePath m d path = some (m.resolvePath d path) := by
  cases path with
  | nil => rfl
  | cons name rest =>
    rw [resolvePath, resolveSimple_eq h hd]
    exact resolveBelow_eq h (fun t ht => contains_of_resolveOutward h ht) rest

theorem resolve_eq (h : Coherent m) (hd : m.contains d) (text : String) :
    resolve m d text = some (m.resolve d text) := by
  rw [resolve, Model.resolve]
  cases QualifiedName.parse? text with
  | none => rfl
  | some path => exact resolvePath_eq h hd path

theorem scopeProblems_eq (h : Coherent m) (hd : m.contains d) :
    scopeProblems m d = some (m.scopeProblems d) := by
  rw [scopeProblems, Model.facts?_eq hd, Model.scopeProblems, Model.hasContent]
  simp only [Option.bind_eq_bind, Option.bind_some, Model.facts, scope_eq h]
  cases (m.members d).isEmpty <;> cases (m.imports d).isEmpty <;>
    cases (m.specializations.get d).isEmpty <;> rfl

theorem scopeProblems_flatMap_eq (h : Coherent m) {ds : List ElementId}
    (hds : ∀ d ∈ ds, m.contains d) :
    ds.flatMapM (scopeProblems m) = some (ds.flatMap m.scopeProblems) :=
  flatMapM_eq_some fun d hd => scopeProblems_eq h (hds d hd)

theorem allProblems_eq (h : Coherent m) : allProblems m = some m.allProblems := by
  rw [allProblems, bind_of_eq_some (preorder_eq h.forest),
    scopeProblems_flatMap_eq h fun d hd => h.forest.mem_preorder_iff.1 hd]
  rfl

theorem check_eq (h : Coherent m) : check m = some m.check := by
  rw [check, allProblems_eq h]
  rfl

theorem checkSome_eq (h : Coherent m) (wholeModel : Bool) {ds : List ElementId}
    (hds : ∀ d ∈ ds, m.contains d) :
    (m.checkSome? wholeModel ds).isSome ∧
      checkSome m wholeModel ds = m.checkSome? wholeModel ds := by
  have hall : ds.all m.contains := List.all_eq_true.2 hds
  rw [checkSome, scopeProblems_flatMap_eq h hds, Model.checkSome?, if_pos hall]
  cases wholeModel with
  | false => exact ⟨rfl, rfl⟩
  | true =>
    simp only [if_true, allProblems_eq h]
    exact ⟨rfl, rfl⟩

end Kerml.Guarded
