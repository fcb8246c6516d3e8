import Kerml.Proofs.Import.Exposed
import Kerml.Proofs.Reachable
import Mathlib

/-!
# Directives that take part in an expansion

What each directive brings in when the imports of a namespace are expanded. Every one that takes
part brings in its share exactly once, whatever cycles the imports form.
-/
namespace Kerml

open Relation

/-- An import directive in its place. -/
structure Placed where
  owner : ElementId
  position : Nat
  directive : Import
deriving DecidableEq, Repr

def Forest.directives (f : Forest) (d : ElementId) : List Placed :=
  (f.imports d).zipIdx.map fun p => ⟨d, p.2, p.1⟩

/-- Whether a directive lets what it walks through hand on. -/
def ImportShape.isRecursive : ImportShape → Bool
  | .recursive | .recursiveExclusive => true
  | _ => false

/-- The directives that take part in the imports of a namespace: its own, and the public ones of all
that is exposed by the target of a recursive directive that takes part. -/
inductive Active (m : Model) (n : ElementId) : Placed → Prop
  | own {p : Placed} (hp : p ∈ m.directives n) : Active m n p
  | handedOn {p q : Placed} {t : ElementId} (hp : Active m n p)
      (hs : p.directive.shape.isRecursive) (ht : m.importTarget? p.owner p.directive = some t)
      (hq : q ∈ m.directives q.owner) (he : m.Exposes t q.owner) (hpublic : q.directive.isPublic) :
      Active m n q

noncomputable def Placed.share (p : Placed) (m : Model) : List Imported :=
  match m.importTarget? p.owner p.directive with
  | none => []
  | some t =>
    match p.directive.shape with
    | .specific => [{ element := t, newName := p.directive.newName }]
    | .wildcard => (t :: m.membersFor t .outsider).map ({ element := · })
    | .recursive => (m.exposed t).map ({ element := · })
    | .recursiveExclusive => ((m.exposed t).filter (· ≠ t)).map ({ element := · })

namespace Forest

variable {f : Forest} {d : ElementId} {p : Placed}

theorem owner_of_mem_directives (h : p ∈ f.directives d) : p.owner = d := by
  obtain ⟨q, -, rfl⟩ := List.mem_map.1 h
  rfl

theorem map_directive_directives (f : Forest) (d : ElementId) :
    (f.directives d).map (·.directive) = f.imports d := by
  rw [directives, List.map_map]
  exact List.zipIdx_map_fst 0 (f.imports d)

def publicDirectives (f : Forest) (d : ElementId) : List Placed :=
  (f.directives d).filter (·.directive.isPublic)

theorem owner_of_mem_publicDirectives (h : p ∈ f.publicDirectives d) : p.owner = d :=
  owner_of_mem_directives (List.mem_filter.1 h).1

end Forest

namespace Model

open ImportStep

variable {m : Model} {n d e t : ElementId} {p : Placed} {i : Import}

/-- The steps of a directive bring in its share, perhaps in another order. -/
theorem brought_directiveSteps (h : m.WellFormed) (p : Placed) :
    ((m.directiveSteps p.owner p.directive).filterMap brought?).Perm (p.share m) := by
  rw [directiveSteps, Placed.share]
  cases ht : m.importTarget? p.owner p.directive with
  | none => exact .nil
  | some t =>
    have hknown : m.contains t := contains_of_importTarget? h ht
    have hbelow := brought_publicSteps_perm h hknown
    simp only [targetSteps]
    cases p.directive.shape with
    | specific => exact .refl _
    | wildcard =>
      apply List.Perm.of_eq
      simp [List.filterMap_map, Function.comp_def]
    | recursive =>
      have hself := (h.exposed_perm hknown).map fun e : ElementId => ({ element := e } : Imported)
      rw [List.map_cons] at hself
      exact (hbelow.cons _).trans hself.symm
    | recursiveExclusive => exact hbelow

theorem mem_handing_directiveSteps (h : m.WellFormed) :
    e ∈ (m.directiveSteps d i).filterMap handing? ↔
      i.shape.isRecursive ∧ ∃ t, m.importTarget? d i = some t ∧ m.Exposes t e := by
  rw [directiveSteps]
  cases ht : m.importTarget? d i with
  | none => simp
  | some t =>
    have hbelow := mem_handing_publicSteps h (d := t) (e := e)
    simp only [targetSteps, ImportShape.isRecursive]
    cases i.shape with
    | specific => simp [handing?]
    | wildcard => simp
    | recursive => simpa using hbelow
    | recursiveExclusive => simpa using hbelow

/-- What a run of steps makes of them: the namespaces that hand on, and what comes in. -/
structure HandedOn (m : Model) (visited : List ElementId) (steps : List ImportStep)
    (handed : List ElementId) (out : List Imported) : Prop where
  nodup : handed.Nodup
  fresh : ∀ d ∈ handed, d ∉ visited
  perm : out.Perm (steps.filterMap brought? ++
    handed.flatMap fun d => (m.publicImportSteps d).filterMap brought?)
  closed : ∀ d, m.contains d → (d ∈ steps.filterMap handing? ∨
    ∃ e ∈ handed, d ∈ (m.publicImportSteps e).filterMap handing?) → d ∈ visited ∨ d ∈ handed
  reached : ∀ d ∈ handed, ∃ s ∈ steps.filterMap handing?,
    ReflTransGen (fun a b => b ∈ (m.publicImportSteps a).filterMap handing?) s d

namespace HandedOn

variable {visited handed : List ElementId} {rest : List ImportStep} {out : List Imported}

theorem bring (h : HandedOn m visited rest handed out) (i : Imported) :
    HandedOn m visited (.bring i :: rest) handed (i :: out) where
  nodup := h.nodup
  fresh := h.fresh
  perm := h.perm.cons i
  closed := h.closed
  reached := h.reached

/-- A namespace that was visited, or that is unknown, does not hand on. -/
theorem skip (h : HandedOn m visited rest handed out) (hd : m.contains d → d ∈ visited) :
    HandedOn m visited (.handOn d :: rest) handed out := by
  refine ⟨h.nodup, h.fresh, h.perm, ?_, ?_⟩
  · intro e hknown he
    rcases he with he | he
    · rcases List.mem_cons.1 he with rfl | he
      · exact Or.inl (hd hknown)
      · exact h.closed e hknown (Or.inl he)
    · exact h.closed e hknown (Or.inr he)
  · intro e he
    obtain ⟨s, hs, hse⟩ := h.reached e he
    exact ⟨s, List.mem_cons_of_mem _ hs, hse⟩

/-- Any other namespace does, and its public directives come next. -/
theorem handOn (h : HandedOn m (d :: visited) (m.publicImportSteps d ++ rest) handed out)
    (hd : d ∉ visited) : HandedOn m visited (.handOn d :: rest) (d :: handed) out := by
  have hnew : d ∉ handed := fun hmem => h.fresh d hmem List.mem_cons_self
  refine ⟨List.nodup_cons.2 ⟨hnew, h.nodup⟩, ?_, ?_, ?_, ?_⟩
  · intro e he
    rcases List.mem_cons.1 he with rfl | he
    · exact hd
    · exact fun hv => h.fresh e he (List.mem_cons_of_mem d hv)
  · refine h.perm.trans ?_
    rw [List.filterMap_append, List.flatMap_cons, ← List.append_assoc]
    exact List.perm_append_comm.append_right _
  · intro e hknown he
    have hnext : e = d ∨ e ∈ (m.publicImportSteps d ++ rest).filterMap handing? ∨
        ∃ x ∈ handed, e ∈ (m.publicImportSteps x).filterMap handing? := by
      rw [List.filterMap_append, List.mem_append]
      rcases he with he | ⟨x, hx, he⟩
      · rcases List.mem_cons.1 he with rfl | he
        · exact Or.inl rfl
        · exact Or.inr (Or.inl (Or.inr he))
      · rcases List.mem_cons.1 hx with rfl | hx
        · exact Or.inr (Or.inl (Or.inl he))
        · exact Or.inr (Or.inr ⟨x, hx, he⟩)
    rcases hnext with rfl | hnext
    · exact Or.inr List.mem_cons_self
    · rcases h.closed e hknown hnext with hv | hh
      · rcases List.mem_cons.1 hv with rfl | hv
        · exact Or.inr List.mem_cons_self
        · exact Or.inl hv
      · exact Or.inr (List.mem_cons_of_mem d hh)
  · intro e he
    rcases List.mem_cons.1 he with rfl | he
    · exact ⟨e, List.mem_cons_self, .refl⟩
    · obtain ⟨s, hs, hse⟩ := h.reached e he
      rw [List.filterMap_append, List.mem_append] at hs
      rcases hs with hs | hs
      · exact ⟨d, List.mem_cons_self, .head hs hse⟩
      · exact ⟨s, List.mem_cons_of_mem _ hs, hse⟩

end HandedOn

/-- Every run lets each namespace that is reached, and was not visited before, hand on once. -/
theorem handedOn_runSteps (m : Model) (visited : List ElementId) (steps : List ImportStep) :
    ∃ handed, HandedOn m visited steps handed (m.runSteps visited steps) := by
  fun_induction runSteps m visited steps with
  | case1 visited => exact ⟨[], by constructor <;> simp⟩
  | case2 visited i rest ih =>
    obtain ⟨handed, hrest⟩ := ih
    exact ⟨handed, hrest.bring i⟩
  | case3 visited d rest hd ih =>
    obtain ⟨handed, hrest⟩ := ih
    exact ⟨d :: handed, hrest.handOn (by simpa using hd.2)⟩
  | case4 visited d rest hd ih =>
    obtain ⟨handed, hrest⟩ := ih
    refine ⟨handed, hrest.skip fun hknown => ?_⟩
    by_contra hv
    exact hd ⟨hknown, by simpa using hv⟩

theorem ownSteps_eq (m : Model) (d : ElementId) :
    m.ownSteps d = (m.directives d).flatMap fun p => m.directiveSteps p.owner p.directive := by
  rw [ownSteps, ← Forest.map_directive_directives, List.flatMap_map]
  exact List.flatMap_congr fun p hp => by rw [Forest.owner_of_mem_directives hp]

theorem publicImportSteps_eq (m : Model) (d : ElementId) : m.publicImportSteps d =
    (m.publicDirectives d).flatMap fun p => m.directiveSteps p.owner p.directive := by
  rw [publicImportSteps, ← Forest.map_directive_directives, List.filter_map, List.flatMap_map]
  exact List.flatMap_congr fun p hp => by rw [Forest.owner_of_mem_publicDirectives hp]

theorem brought_flatMap (h : m.WellFormed) (ps : List Placed) :
    ((ps.flatMap fun p => m.directiveSteps p.owner p.directive).filterMap brought?).Perm
      (ps.flatMap (·.share m)) := by
  rw [List.filterMap_flatMap]
  exact List.Perm.flatMap_left ps fun p _ => brought_directiveSteps h p

theorem mem_handing_flatMap (h : m.WellFormed) {ps : List Placed} :
    e ∈ (ps.flatMap fun p => m.directiveSteps p.owner p.directive).filterMap handing? ↔
      ∃ p ∈ ps, p.directive.shape.isRecursive ∧
        ∃ t, m.importTarget? p.owner p.directive = some t ∧ m.Exposes t e := by
  rw [List.filterMap_flatMap, List.mem_flatMap]
  simp only [mem_handing_directiveSteps h]

def takingPart (m : Model) (n : ElementId) (handed : List ElementId) : List Placed :=
  m.directives n ++ handed.flatMap m.publicDirectives

theorem active_of_exposes {p : Placed} (hp : Active m n p) (hs : p.directive.shape.isRecursive)
    (ht : m.importTarget? p.owner p.directive = some t) (he : m.Exposes t d) :
    ∀ q ∈ m.publicDirectives d, Active m n q := by
  intro q hq
  have howner := Forest.owner_of_mem_publicDirectives hq
  obtain ⟨hq, hpublic⟩ := List.mem_filter.1 hq
  exact .handedOn hp hs ht (howner ▸ hq) (howner ▸ he) hpublic

private theorem active_of_reached (h : m.WellFormed) {s : ElementId}
    (hs : s ∈ (m.ownSteps n).filterMap handing?)
    (hd : ReflTransGen (fun a b => b ∈ (m.publicImportSteps a).filterMap handing?) s d) :
    ∀ q ∈ m.publicDirectives d, Active m n q := by
  induction hd with
  | refl =>
    rw [ownSteps_eq, mem_handing_flatMap h] at hs
    obtain ⟨p, hp, hrecursive, t, ht, he⟩ := hs
    exact active_of_exposes (.own hp) hrecursive ht he
  | tail _ hd ih =>
    rw [publicImportSteps_eq, mem_handing_flatMap h] at hd
    obtain ⟨p, hp, hrecursive, t, ht, he⟩ := hd
    exact active_of_exposes (ih p hp) hrecursive ht he

/-- Once no more namespaces are to hand on, all directives that should take part do. -/
theorem mem_takingPart_iff (h : m.WellFormed) {handed : List ElementId} {out : List Imported}
    (hrun : HandedOn m [n] (m.ownSteps n) handed out) {p : Placed} :
    p ∈ m.takingPart n handed ↔ Active m n p := by
  constructor
  · intro hp
    rcases List.mem_append.1 hp with hp | hp
    · exact .own hp
    · obtain ⟨d, hd, hp⟩ := List.mem_flatMap.1 hp
      obtain ⟨s, hs, hsd⟩ := hrun.reached d hd
      exact active_of_reached h hs hsd p hp
  · intro hp
    induction hp with
    | own hp => exact List.mem_append_left _ hp
    | @handedOn p q t _ hs ht hq he hpublic ih =>
      have hknown : m.contains q.owner :=
        h.contains_of_exposes he (contains_of_importTarget? h ht)
      have hclosed : q.owner ∈ [n] ∨ q.owner ∈ handed := by
        apply hrun.closed q.owner hknown
        rw [ownSteps_eq, mem_handing_flatMap h]
        rcases List.mem_append.1 ih with hp | hp
        · exact Or.inl ⟨p, hp, hs, t, ht, he⟩
        · obtain ⟨d, hd, hp⟩ := List.mem_flatMap.1 hp
          refine Or.inr ⟨d, hd, ?_⟩
          rw [publicImportSteps_eq, mem_handing_flatMap h]
          exact ⟨p, hp, hs, t, ht, he⟩
      rcases hclosed with hn | hh
      · exact List.mem_append_left _ (List.mem_singleton.1 hn ▸ hq)
      · exact List.mem_append_right _
          (List.mem_flatMap.2 ⟨q.owner, hh, List.mem_filter.2 ⟨hq, hpublic⟩⟩)

end Model
end Kerml
