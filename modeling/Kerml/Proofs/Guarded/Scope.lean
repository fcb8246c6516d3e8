import Kerml.Proofs.Guarded.Imported
import Kerml.Proofs.Scope.Entries

/-!
# Scopes without unknown handles

Specializations lead to known declarations, so that the supertypes, their members and the
redefined features are known.
-/
namespace Kerml.Guarded

open Model (Coherent groups)

def followed (m : Model) (v : Viewpoint) (isOwn : Bool) (t : ElementId) :
    Option (List Specialization) := do
  return (Specialization.matching (← m.facts? t).specializations .specialization).filter fun s =>
    !s.kind.isRedefinition && v.follows isOwn s.visibility

def inherit (m : Model) (v : Viewpoint) (visited : List ElementId) :
    List Specialization → Option (List Ancestor)
  | [] => some []
  | s :: rest =>
    if _h : m.contains s.general ∧ ¬ visited.contains s.general then do
      let next ← followed m v false s.general
      return ⟨s.general, !s.isImplied⟩ :: (← inherit m v (s.general :: visited) (next ++ rest))
    else if visited.contains s.general then inherit m v visited rest
    else none
termination_by pending => (m.unlisted visited, pending.length)
decreasing_by
  · exact Prod.Lex.left _ _ (m.unlisted_cons_lt _h.1 _h.2)
  · exact Prod.Lex.right _ (by simp)

def scopeAncestors (m : Model) (v : Viewpoint) (d : ElementId) : Option (List Ancestor) := do
  if (← m.facts? d).metaclass.isType then inherit m v [d] (← followed m v true d) else return []

def nextRing (m : Model) (v : Viewpoint) (isOwn : Bool) (known ring : List ElementId) :
    Option (List ElementId) := do
  let generals ← ring.flatMapM fun t => do return (← followed m v isOwn t).map (·.general)
  return distinct (generals.filter (!known.contains ·))

def rings (m : Model) (v : Viewpoint) (isOwn : Bool) (distance : Nat)
    (known ring : List ElementId) : Option (List (ElementId × Nat)) :=
  match nextRing m v isOwn known ring with
  | none => none
  | some [] => some (ring.map (·, distance))
  | some (t :: more) =>
    if _h : m.contains t ∧ ¬ known.contains t then do
      return ring.map (·, distance) ++
        (← rings m v false (distance + 1) (known ++ t :: more) (t :: more))
    else none
termination_by m.unlisted known
decreasing_by exact m.unlisted_append_lt _h.1 _h.2 List.mem_cons_self

def redefinitionsBy (m : Model) (distance : Nat) (d : ElementId) :
    Option (List Redefinition) := do
  return (Specialization.matching (← m.facts? d).specializations .redefinition).map fun s =>
    ⟨distance, d, s.general⟩

def redefinitionsIn (m : Model) (distance : Nat) (d : ElementId) :
    Option (List Redefinition) := do
  (← m.facts? d).members.flatMapM (redefinitionsBy m distance)

def redefinitions (m : Model) (v : Viewpoint) (d : ElementId) : Option (List Redefinition) := do
  let distances ← rings m v true 0 [d] [d]
  let own ← redefinitionsBy m 0 d
  let near ← redefinitionsIn m 0 d
  let far ← (← scopeAncestors m v d).flatMapM fun a =>
    match distances.lookup a.element with
    | some distance => redefinitionsIn m distance a.element
    | none => some []
  return own ++ near ++ far

def ambiguities (m : Model) (g : RedefinitionGroup) : Option (List Diagnostic) := do
  match g.redefiners with
  | [] => return []
  | first :: others =>
    let redefined ← qualifiedName m g.redefined
    let firstName ← qualifiedName m first
    let span := (← m.facts? first).span
    others.mapM fun d => do
      return (Problem.ambiguousRedefinition redefined first span firstName).diagnostic d
        (← m.facts? d).span

def candidates (m : Model) (v : Viewpoint) (d : ElementId) : Option (List Candidate) := do
  let own ← membersFor m d v.ownAudience
  let imports ← imported m d
  let isType := (← m.facts? d).metaclass.isType
  let inherited ← (← scopeAncestors m v d).flatMapM fun a => do
    return (if v == .inside && a.isWritten then [{ element := a.element, origin := .inherited }]
      else []) ++
      (← membersFor m a.element v.heirAudience).map ({ element := ·, origin := .inherited })
  return own.map ({ element := ·, origin := .own }) ++
    imports.map (fun i => { element := i.element, newName := i.newName, origin := .imported }) ++
    (if isType && v == .inside then [{ element := d, origin := .own }] else []) ++ inherited

def entry (m : Model) (c : Candidate) : Option (Option ScopeEntry) := do
  let x ← m.facts? c.element
  match c.newName.or (x.effectiveName.or x.shortName) with
  | none => return none
  | some name =>
    return some
      { name
        shortName := if c.newName.isSome then none else x.shortName
        qualifiedName := ← qualifiedName m c.element
        element := c.element
        origin := c.origin }

def unhiddenEntries (m : Model) (v : Viewpoint) (d : ElementId) : Option (List ScopeEntry) := do
  return distinctBy (·.element) (← (← candidates m v d).filterMapM (entry m))

def scope (m : Model) (v : Viewpoint) (d : ElementId) : Option Scope := do
  if m.contains d then
    let gs := groups (← redefinitions m v d)
    let hidden := (gs.filter (·.isUnique)).map (·.redefined)
    let entries ← unhiddenEntries m v d
    let diagnostics ← (gs.filter (!·.isUnique)).flatMapM (ambiguities m)
    return { entries := entries.filter fun e => !hidden.contains e.element, diagnostics }
  else return {}

variable {m : Model} {v : Viewpoint} {d t : ElementId}

theorem followed_eq (hd : m.contains d) (isOwn : Bool) :
    followed m v isOwn d = some (m.followed v isOwn d) := by
  rw [followed, Model.facts?_eq hd]
  rfl

private theorem inherit_eq (h : Coherent m) {visited : List ElementId} {pending : List Specialization}
    (hpending : ∀ s ∈ pending, m.contains s.general) :
    inherit m v visited pending = some (m.inherit v visited pending) := by
  fun_induction Model.inherit m v visited pending with
  | case1 visited => rw [inherit]
  | case2 visited s rest hs ih =>
    have hnext : ∀ r ∈ m.followed v false s.general ++ rest, m.contains r.general := by
      intro r hr
      rcases List.mem_append.1 hr with hr | hr
      · exact Model.contains_of_mem_followed h hr
      · exact hpending r (List.mem_cons_of_mem s hr)
    rw [inherit, dif_pos hs, bind_of_eq_some (followed_eq hs.1 false), ih hnext]
    rfl
  | case3 visited s rest hs ih =>
    have hvisited : visited.contains s.general := by
      by_contra hnew
      exact hs ⟨hpending s List.mem_cons_self, hnew⟩
    rw [inherit, dif_neg hs, if_pos hvisited]
    exact ih fun r hr => hpending r (List.mem_cons_of_mem s hr)

theorem scopeAncestors_eq (h : Coherent m) (hd : m.contains d) :
    scopeAncestors m v d = some (m.scopeAncestors v d) := by
  rw [scopeAncestors, bind_of_eq_some (Model.facts?_eq hd), Model.scopeAncestors]
  by_cases htype : m.isType d
  · have hkind : (m.facts d).metaclass.isType := htype
    rw [if_pos hkind, if_pos htype, bind_of_eq_some (followed_eq hd true)]
    exact inherit_eq h fun s hs => Model.contains_of_mem_followed h hs
  · have hkind : ¬ (m.facts d).metaclass.isType := htype
    rw [if_neg hkind, if_neg htype]
    rfl

/-- Inheriting leads to known declarations. -/
theorem contains_of_mem_scopeAncestors (h : Coherent m) {a : Ancestor}
    (ha : a ∈ m.scopeAncestors v d) : m.contains a.element := by
  obtain ⟨-, -, b, hdb, hba⟩ :=
    (Model.mem_scopeAncestors_iff h).1 (List.mem_map_of_mem (f := (·.element)) ha)
  rcases Relation.ReflTransGen.cases_tail hba with hab | ⟨c, -, s, hs, hsa, -⟩
  · obtain ⟨s, hs, hsb, -⟩ := hdb
    rw [hab, ← hsb]
    exact h.contains_general hs
  · rw [← hsa]
    exact h.contains_general hs

theorem nextRing_eq (h : Coherent m) {isOwn : Bool} {known ring : List ElementId}
    (hring : ∀ t ∈ ring, m.contains t) :
    nextRing m v isOwn known ring = some (m.nextRing v isOwn known ring) := by
  have hgenerals : (ring.flatMapM fun t => do return (← followed m v isOwn t).map (·.general)) =
      some (ring.flatMap fun t => (m.followed v isOwn t).map (·.general)) :=
    flatMapM_eq_some fun t ht => by rw [followed_eq (hring t ht)]; rfl
  have hknown : ∀ t ∈ ring.flatMap fun t => (m.followed v isOwn t).map (·.general),
      (!known.contains t) = (m.contains t && !known.contains t) := by
    intro t ht
    obtain ⟨c, -, ht⟩ := List.mem_flatMap.1 ht
    obtain ⟨s, hs, rfl⟩ := List.mem_map.1 ht
    rw [Model.contains_of_mem_followed h hs, Bool.true_and]
  rw [nextRing, hgenerals, Model.nextRing, Option.bind_eq_bind, Option.bind_some,
    List.filter_congr hknown]
  rfl

private theorem mem_nextRing {isOwn : Bool} {known ring : List ElementId}
    (ht : t ∈ m.nextRing v isOwn known ring) : m.contains t ∧ ¬ known.contains t := by
  simpa using (List.mem_filter.1 (mem_of_mem_distinct ht)).2

private theorem rings_eq (h : Coherent m) {isOwn : Bool} {distance : Nat} {known ring : List ElementId}
    (hring : ∀ t ∈ ring, m.contains t) :
    rings m v isOwn distance known ring = some (m.rings v isOwn distance known ring) := by
  fun_induction Model.rings m v isOwn distance known ring with
  | case1 isOwn distance known ring ih =>
    split
    · rename_i hlast
      rw [rings, nextRing_eq h hring, hlast, List.append_nil]
    · rename_i t more hmore
      have hnew : ∀ c ∈ t :: more, m.contains c ∧ ¬ known.contains c := fun c hc =>
        mem_nextRing (hmore ▸ hc)
      rw [rings, nextRing_eq h hring, hmore]
      simp only
      rw [dif_pos (hnew t List.mem_cons_self), ih t more hmore fun c hc => (hnew c hc).1]
      rfl

private theorem distances_eq (h : Coherent m) (hd : m.contains d) :
    rings m v true 0 [d] [d] = some (m.distances v d) :=
  rings_eq h fun t ht => by rwa [List.mem_singleton.1 ht]

theorem redefinitionsBy_eq (hd : m.contains d) (distance : Nat) :
    redefinitionsBy m distance d = some (m.redefinitionsBy distance d) := by
  rw [redefinitionsBy, Model.facts?_eq hd]
  rfl

theorem redefinitionsIn_eq (h : m.WellFormed) (hd : m.contains d) (distance : Nat) :
    redefinitionsIn m distance d = some (m.redefinitionsIn distance d) := by
  rw [redefinitionsIn, Model.facts?_eq hd]
  exact flatMapM_eq_some fun c hc => redefinitionsBy_eq (h.contains_member hc) distance

private theorem redefinitions_eq (h : Coherent m) (hd : m.contains d) :
    redefinitions m v d = some (m.redefinitions v d) := by
  have hfar : ((m.scopeAncestors v d).flatMapM fun a =>
      match (m.distances v d).lookup a.element with
      | some distance => redefinitionsIn m distance a.element
      | none => some []) =
      some ((m.scopeAncestors v d).flatMap fun a =>
        (((m.distances v d).lookup a.element).map fun distance =>
          m.redefinitionsIn distance a.element).getD []) := by
    refine flatMapM_eq_some fun a ha => ?_
    cases (m.distances v d).lookup a.element with
    | none => rfl
    | some distance =>
      exact redefinitionsIn_eq h.forest (contains_of_mem_scopeAncestors h ha) distance
  rw [redefinitions, bind_of_eq_some (distances_eq h hd), bind_of_eq_some (redefinitionsBy_eq hd 0),
    bind_of_eq_some (redefinitionsIn_eq h.forest hd 0), bind_of_eq_some (scopeAncestors_eq h hd),
    bind_of_eq_some hfar]
  rfl

/-- Known declarations redefine known features. -/
theorem contains_of_mem_redefinitions (h : Coherent m) (hd : m.contains d) {r : Redefinition}
    (hr : r ∈ m.redefinitions v d) : m.contains r.redefiner ∧ m.contains r.redefined := by
  have hby : ∀ {distance e}, m.contains e → r ∈ m.redefinitionsBy distance e →
      m.contains r.redefiner ∧ m.contains r.redefined := by
    intro distance e he hr
    obtain ⟨s, hs, rfl⟩ := List.mem_map.1 hr
    exact ⟨he, h.contains_general (List.mem_filter.1 hs).1⟩
  have hin : ∀ {distance e}, r ∈ m.redefinitionsIn distance e →
      m.contains r.redefiner ∧ m.contains r.redefined := by
    intro distance e hr
    obtain ⟨c, hc, hr⟩ := List.mem_flatMap.1 hr
    exact hby (h.forest.contains_member hc) hr
  simp only [Model.redefinitions, List.mem_append, List.mem_flatMap] at hr
  rcases hr with (hr | hr) | ⟨a, -, hr⟩
  · exact hby hd hr
  · exact hin hr
  · cases hfar : (m.distances v d).lookup a.element with
    | none => simp [hfar] at hr
    | some distance => exact hin (by simpa [hfar] using hr)

private theorem contains_of_mem_groups (h : Coherent m) (hd : m.contains d) {g : RedefinitionGroup}
    (hg : g ∈ groups (m.redefinitions v d)) :
    m.contains g.redefined ∧ ∀ r ∈ g.redefiners, m.contains r := by
  obtain ⟨key, hkey, rfl⟩ := List.mem_map.1 hg
  constructor
  · obtain ⟨r, hr, rfl⟩ := List.mem_map.1 (mem_of_mem_distinct hkey)
    exact (contains_of_mem_redefinitions h hd hr).2
  · intro e he
    obtain ⟨r, hr, rfl⟩ := List.mem_map.1 (mem_of_mem_distinct he)
    exact (contains_of_mem_redefinitions h hd (List.mem_filter.1 hr).1).1

private theorem ambiguities_eq (h : m.WellFormed) {g : RedefinitionGroup} (hg : m.contains g.redefined)
    (hrs : ∀ r ∈ g.redefiners, m.contains r) : ambiguities m g = some (m.ambiguities g) := by
  rw [ambiguities, Model.ambiguities]
  cases hgroup : g.redefiners with
  | nil => rfl
  | cons first others =>
    rw [hgroup] at hrs
    have hfirst : m.contains first := hrs first List.mem_cons_self
    simp only [qualifiedName_eq h hg, qualifiedName_eq h hfirst, Model.facts?_eq hfirst,
      Option.bind_eq_bind, Option.bind_some]
    exact mapM_eq_some fun d hd => by
      rw [Model.facts?_eq (hrs d (List.mem_cons_of_mem first hd))]; rfl

private theorem candidates_eq (h : Coherent m) (hd : m.contains d) :
    candidates m v d = some (m.candidates v d) := by
  have hinherited : ((m.scopeAncestors v d).flatMapM fun a => do
      return (if v == .inside && a.isWritten then
          [({ element := a.element, origin := .inherited } : Candidate)] else []) ++
        (← membersFor m a.element v.heirAudience).map ({ element := ·, origin := .inherited })) =
      some ((m.scopeAncestors v d).flatMap fun a =>
        (if v == .inside && a.isWritten then
          [({ element := a.element, origin := .inherited } : Candidate)] else []) ++
        (m.membersFor a.element v.heirAudience).map ({ element := ·, origin := .inherited })) :=
    flatMapM_eq_some fun a ha => by
      rw [membersFor_eq h.forest (contains_of_mem_scopeAncestors h ha)]; rfl
  rw [candidates, bind_of_eq_some (membersFor_eq h.forest hd _),
    bind_of_eq_some (imported_eq h.forest hd), bind_of_eq_some (Model.facts?_eq hd),
    bind_of_eq_some (scopeAncestors_eq h hd), bind_of_eq_some hinherited]
  rfl

theorem contains_of_mem_candidates (h : Coherent m) (hd : m.contains d) {c : Candidate}
    (hc : c ∈ m.candidates v d) : m.contains c.element := by
  have hmember : ∀ {e o a}, e ∈ m.membersFor o a → m.contains e := fun he =>
    h.forest.contains_member (Forest.mem_of_mem_membersFor he)
  simp only [Model.candidates, List.mem_append] at hc
  rcases hc with ((hc | hc) | hc) | hc
  · obtain ⟨e, he, rfl⟩ := List.mem_map.1 hc
    exact hmember he
  · obtain ⟨i, hi, rfl⟩ := List.mem_map.1 hc
    exact contains_of_mem_imported h.forest hi
  · split at hc
    · rw [List.mem_singleton.1 hc]
      exact hd
    · cases hc
  · obtain ⟨a, ha, hc⟩ := List.mem_flatMap.1 hc
    rcases List.mem_append.1 hc with hc | hc
    · split at hc
      · rw [List.mem_singleton.1 hc]
        exact contains_of_mem_scopeAncestors h ha
      · cases hc
    · obtain ⟨e, he, rfl⟩ := List.mem_map.1 hc
      exact hmember he

private theorem entry_eq (h : m.WellFormed) {c : Candidate} (hc : m.contains c.element) :
    entry m c = some ( m.entry? c) := by
  rw [entry, Model.facts?_eq hc, Model.entry?]
  simp only [Option.bind_eq_bind, Option.bind_some, Model.facts]
  cases c.newName.or ((m.effectiveName c.element).or (m.shortName c.element)) with
  | none => rfl
  | some name =>
    simp only [qualifiedName_eq h hc]
    rfl

theorem unhiddenEntries_eq (h : Coherent m) (hd : m.contains d) :
    unhiddenEntries m v d = some (m.unhiddenEntries v d) := by
  have hentries : (m.candidates v d).filterMapM (entry m) =
      some ((m.candidates v d).filterMap m.entry?) :=
    filterMapM_eq_some fun c hc => entry_eq h.forest (contains_of_mem_candidates h hd hc)
  rw [unhiddenEntries, bind_of_eq_some (candidates_eq h hd), hentries]
  rfl

theorem scope_eq (h : Coherent m) (v : Viewpoint) (d : ElementId) :
    scope m v d = some (m.scope v d) := by
  rw [scope, Model.scope]
  by_cases hd : m.contains d
  · have hclashes : ((groups (m.redefinitions v d)).filter (!·.isUnique)).flatMapM (ambiguities m) =
        some (((groups (m.redefinitions v d)).filter (!·.isUnique)).flatMap m.ambiguities) := by
      refine flatMapM_eq_some fun g hg => ?_
      obtain ⟨hredefined, hredefiners⟩ := contains_of_mem_groups h hd (List.mem_filter.1 hg).1
      exact ambiguities_eq h.forest hredefined hredefiners
    rw [if_pos hd, if_pos hd, bind_of_eq_some (redefinitions_eq h hd),
      bind_of_eq_some (unhiddenEntries_eq h hd), hclashes]
    rfl
  · rw [if_neg hd, if_neg hd]
    rfl

end Kerml.Guarded
