import Kerml.Proofs.Guarded.Lookup
import Kerml.Proofs.Import.Visible

/-!
# Imports without unknown handles

Expanding imports comes across no unknown handles. The targets of directives are known, and so is
all that they expose.
-/
namespace Kerml.Guarded

open ImportStep

def publicSteps (m : Model) (d : ElementId) : Option (List ImportStep) := do
  let below ← (← membersFor m d .outsider).flatMapM fun c =>
    if _h : d.index < c.index ∧ c.index < m.size then do return Model.bring c :: (← publicSteps m c)
    else none
  return below ++ [.handOn d]
termination_by m.size - d.index

def targetSteps (m : Model) (i : Import) (t : ElementId) : Option (List ImportStep) := do
  match i.shape with
  | .specific => return [.bring { element := t, newName := i.newName }]
  | .wildcard => return Model.bring t :: (← membersFor m t .outsider).map Model.bring
  | .recursive => return Model.bring t :: (← publicSteps m t)
  | .recursiveExclusive => publicSteps m t

def directiveSteps (m : Model) (d : ElementId) (i : Import) : Option (List ImportStep) := do
  match ← importTarget m d i with
  | none => return []
  | some t => targetSteps m i t

def ownSteps (m : Model) (d : ElementId) : Option (List ImportStep) := do
  (← m.facts? d).imports.flatMapM (directiveSteps m d)

def publicImportSteps (m : Model) (d : ElementId) : Option (List ImportStep) := do
  ((← m.facts? d).imports.filter (·.isPublic)).flatMapM (directiveSteps m d)

def runSteps (m : Model) (visited : List ElementId) : List ImportStep → Option (List Imported)
  | [] => some []
  | .bring i :: rest => do return i :: (← runSteps m visited rest)
  | .handOn d :: rest =>
    if _h : m.contains d ∧ ¬ visited.contains d then do
      runSteps m (d :: visited) ((← publicImportSteps m d) ++ rest)
    else if visited.contains d then runSteps m visited rest
    else none
termination_by steps => (m.unlisted visited, steps.length)
decreasing_by
  · exact Prod.Lex.right _ (by simp)
  · exact Prod.Lex.left _ _ (m.unlisted_cons_lt _h.1 _h.2)
  · exact Prod.Lex.right _ (by simp)

def imported (m : Model) (d : ElementId) : Option (List Imported) := do
  runSteps m [d] (← ownSteps m d)

variable {m : Model} {d e t : ElementId}

theorem publicSteps_eq (h : m.WellFormed) (hd : m.contains d) :
    publicSteps m d = some (m.publicSteps d) := by
  induction d using h.members_induction with
  | step d ih =>
    have hbelow : ((m.membersFor d .outsider).flatMapM fun c =>
        if _h : d.index < c.index ∧ c.index < m.size then do
          return Model.bring c :: (← publicSteps m c)
        else none) =
        some ((m.membersFor d .outsider).flatMap fun c => Model.bring c :: m.publicSteps c) := by
      refine flatMapM_eq_some fun c hc => ?_
      have hmember := Forest.mem_of_mem_membersFor hc
      have hknown := h.contains_member hmember
      rw [dif_pos ⟨h.lt_of_mem_members hmember, Forest.contains_iff.1 hknown⟩,
        ih c hmember hknown]
      rfl
    rw [publicSteps, bind_of_eq_some (membersFor_eq h hd _), bind_of_eq_some hbelow,
      Model.publicSteps_eq h]
    rfl

private theorem targetSteps_eq (h : m.WellFormed) (ht : m.contains t) (i : Import) :
    targetSteps m i t = some (m.targetSteps i t) := by
  rw [targetSteps, Model.targetSteps]
  cases i.shape with
  | specific => rfl
  | wildcard => simp only [membersFor_eq h ht]; rfl
  | recursive => simp only [publicSteps_eq h ht]; rfl
  | recursiveExclusive => exact publicSteps_eq h ht

theorem directiveSteps_eq (h : m.WellFormed) (hd : m.contains d) (i : Import) :
    directiveSteps m d i = some (m.directiveSteps d i) := by
  rw [directiveSteps, bind_of_eq_some (importTarget_eq h hd i), Model.directiveSteps]
  cases ht : m.importTarget? d i with
  | none => rfl
  | some t => exact targetSteps_eq h (Model.contains_of_importTarget? h ht) i

theorem ownSteps_eq (h : m.WellFormed) (hd : m.contains d) :
    ownSteps m d = some (m.ownSteps d) := by
  rw [ownSteps, Model.facts?_eq hd]
  exact flatMapM_eq_some fun i _ => directiveSteps_eq h hd i

theorem publicImportSteps_eq (h : m.WellFormed) (hd : m.contains d) :
    publicImportSteps m d = some (m.publicImportSteps d) := by
  rw [publicImportSteps, Model.facts?_eq hd]
  exact flatMapM_eq_some fun i _ => directiveSteps_eq h hd i

/-- Only known namespaces are to hand on. -/
theorem contains_of_mem_handing (h : m.WellFormed) {is : List Import}
    (he : e ∈ (is.flatMap (m.directiveSteps d)).filterMap handing?) : m.contains e := by
  rw [List.filterMap_flatMap, List.mem_flatMap] at he
  obtain ⟨i, -, he⟩ := he
  obtain ⟨-, t, ht, hexposes⟩ := (Model.mem_handing_directiveSteps h).1 he
  exact h.contains_of_exposes hexposes (Model.contains_of_importTarget? h ht)

private theorem runSteps_eq (h : m.WellFormed) {visited : List ElementId} {steps : List ImportStep}
    (hsteps : ∀ e ∈ steps.filterMap handing?, m.contains e) :
    runSteps m visited steps = some (m.runSteps visited steps) := by
  fun_induction Model.runSteps m visited steps with
  | case1 visited => rw [runSteps]
  | case2 visited i rest ih =>
    rw [runSteps, ih hsteps]
    rfl
  | case3 visited d rest hd ih =>
    rw [runSteps, dif_pos hd, bind_of_eq_some (publicImportSteps_eq h hd.1)]
    refine ih fun e he => ?_
    rw [List.filterMap_append, List.mem_append] at he
    rcases he with he | he
    · exact contains_of_mem_handing h he
    · exact hsteps e (List.mem_cons_of_mem d he)
  | case4 visited d rest hd ih =>
    have hvisited : visited.contains d := by
      by_contra hnew
      exact hd ⟨hsteps d List.mem_cons_self, hnew⟩
    rw [runSteps, dif_neg hd, if_pos hvisited]
    exact ih fun e he => hsteps e (List.mem_cons_of_mem d he)

theorem imported_eq (h : m.WellFormed) (hd : m.contains d) :
    imported m d = some (m.imported d) := by
  rw [imported, bind_of_eq_some (ownSteps_eq h hd)]
  exact runSteps_eq h fun e he => contains_of_mem_handing h he

/-- Imports bring in known declarations. -/
theorem contains_of_mem_imported (h : m.WellFormed) {i : Imported} (hi : i ∈ m.imported d) :
    m.contains i.element := by
  obtain ⟨p, -, hi⟩ := (Model.mem_imported_iff h).1 hi
  obtain ⟨t, ht, hexposes, -⟩ := Model.exposes_of_mem_share h hi
  exact h.contains_of_exposes hexposes (Model.contains_of_importTarget? h ht)

end Kerml.Guarded
