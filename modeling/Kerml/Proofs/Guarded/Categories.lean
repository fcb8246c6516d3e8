import Kerml.Proofs.Guarded.Reading
import Kerml.Proofs.Reachable

/-!
# Categories without unknown handles

Deriving categories and roles comes across no unknown handles. The walk enters what
specializations lead to, and when it leaves a cycle it goes back to what it has entered.
-/
namespace Kerml.Guarded

open Model (Coherent)

def close (m : Model) (w : Walk) (height : Nat) (c : Categories) : Option Walk := do
  let count := w.path.length - height
  let memos ← (w.path.take count).foldlM (fun memos d => do
    let _ ← m.facts? d
    return memos.put d (.done c)) w.memos
  return { memos, path := w.path.drop count }

def visit (m : Model) : Nat → Walk → ElementId → Option (Walk × Visit)
  | 0, w, _ => some (w, ⟨∅, none⟩)
  | depth + 1, w, d => do
    let x ← m.facts? d
    if !x.metaclass.isType then return (w, ⟨x.metaclass.categories, none⟩)
    else
      match w.memos.get d with
      | .done c => return (w, ⟨c, none⟩)
      | .inProgress => return (w, ⟨∅, some (w.height d)⟩)
      | .unknown =>
        let own := w.path.length
        let generals := (Specialization.matching x.specializations .specialization).map (·.general)
        let start : Walk × Visit := (w.enter d, ⟨x.metaclass.categories, some own⟩)
        let r ← generals.foldlM (fun (acc : Walk × Visit) t => do
          let r ← visit m depth acc.1 t
          return (r.1, acc.2.join r.2)) start
        if r.2.reached.any (· < own) then return r
        else return (← close m r.1 own r.2.gathered, ⟨r.2.gathered, none⟩)

def askCategories (m : Model) (d : ElementId) : Option (Categories × Model) := do
  let (w, v) ← visit m (m.size + 1) { memos := m.memos } d
  return (v.gathered, { m with memos := w.memos })

def askOwnerCategories (m : Model) (d : ElementId) : Option (Categories × Model) := do
  match (← m.facts? d).owner with
  | some o => askCategories m o
  | none => return (∅, m)

def isOwnedBy (m : Model) (owner : Option ElementId) (p : Metaclass → Bool) : Option Bool := do
  match owner with
  | some o => return p (← m.facts? o).metaclass
  | none => return false

def askRole (m : Model) (d : ElementId) : Option (SupertypeRole × Model) := do
  let x ← m.facts? d
  if x.metaclass.isRelationship then
    return (if x.ends.length == 2 then .binary else .base, m)
  else if !x.metaclass.isFeature then return (.base, m)
  else
    let (owners, m) ← askOwnerCategories m d
    match x.metaclass with
    | .step =>
      let ownerPerforms ← isOwnedBy m x.owner (·.isPerformance)
      return (Model.stepRole x.modifiers.isComposite (ownerPerforms || owners.behavior), m)
    | .expression => return (.base, m)
    | _ =>
      let (own, m) ← askCategories m d
      return (Model.featureRole x.modifiers.isComposite owners own, m)

def isParticipant (m : Model) (d : ElementId) : Option Bool := do
  let x ← m.facts? d
  return x.metaclass.isFeature && x.modifiers.isEnd &&
    (← isOwnedBy m x.owner (·.isRelationship))

def askGeneral (m : Model) (d : ElementId) : Option (List SupertypeRole × Model) := do
  let x ← m.facts? d
  if Specialization.hasWritten x.specializations x.metaclass.generalKind ||
      Specialization.hasWritten x.specializations .conjugation then
    return ([], m)
  else
    let (r, m) ← askRole m d
    return ([r], m)

def askRoles (m : Model) (d : ElementId) : Option (List SupertypeRole × Model) := do
  let (general, m) ← askGeneral m d
  return (general ++ if ← isParticipant m d then [.participant] else [], m)

variable {m : Model} {d : ElementId}

theorem close_eq {w : Walk} (hw : ∀ e ∈ w.path, m.contains e) (height : Nat) (c : Categories) :
    close m w height c = some (w.close height c) := by
  have hput : ∀ memos : Column CategoryMemo, True → ∀ e ∈ w.path.take (w.path.length - height),
      (do let _ ← m.facts? e; return memos.put e (.done c)) = some (memos.put e (.done c)) ∧ True :=
    fun memos _ e he => ⟨by rw [Model.facts?_eq (hw e (List.mem_of_mem_take he))]; rfl, trivial⟩
  have hputs := (foldlM_eq_some (fun _ => True) hput (b := w.memos) trivial).1
  rw [close]
  simp only [hputs]
  rfl

/-- A walk through known declarations has an answer, and goes through known declarations. -/
theorem visit_eq (h : Coherent m) (depth : Nat) {w : Walk} (hd : m.contains d)
    (hw : ∀ e ∈ w.path, m.contains e) :
    visit m depth w d = some (m.visit depth w d) ∧
      ∀ e ∈ (m.visit depth w d).1.path, m.contains e := by
  induction depth generalizing w d with
  | zero => exact ⟨rfl, hw⟩
  | succ depth ih =>
    have henter : ∀ e ∈ (w.enter d).path, m.contains e := by
      intro e he
      rcases List.mem_cons.1 he with rfl | he
      · exact hd
      · exact hw e he
    have hstep : ∀ acc : Walk × Visit, (∀ e ∈ acc.1.path, m.contains e) → ∀ t ∈ m.generalTypes d,
        (do let r ← visit m depth acc.1 t; return (r.1, acc.2.join r.2)) =
          some ((m.visit depth acc.1 t).1, acc.2.join (m.visit depth acc.1 t).2) ∧
        ∀ e ∈ (m.visit depth acc.1 t).1.path, m.contains e := by
      intro acc hacc t ht
      obtain ⟨s, hs, rfl⟩ := List.mem_map.1 ht
      obtain ⟨hvisit, hpath⟩ := ih (h.contains_general (List.mem_filter.1 hs).1) hacc
      exact ⟨by rw [hvisit]; rfl, hpath⟩
    obtain ⟨hfold, hpath⟩ := foldlM_eq_some (fun acc : Walk × Visit => ∀ e ∈ acc.1.path, m.contains e)
      hstep (b := (w.enter d, ⟨(m.metaclass d).categories, some w.path.length⟩)) henter
    have hgenerals : (Specialization.matching (m.specializations.get d) .specialization).map
        (·.general) = m.generalTypes d := rfl
    rw [visit, bind_of_eq_some (Model.facts?_eq hd), Model.visit]
    simp only [Model.facts, Forest.isType]
    by_cases htype : (m.metaclass d).isType
    · simp only [htype, Bool.not_true, Bool.false_eq_true, if_false]
      cases hmemo : w.memos.get d with
      | done c => exact ⟨rfl, hw⟩
      | inProgress => exact ⟨rfl, hw⟩
      | unknown =>
        simp only [hgenerals]
        rw [bind_of_eq_some hfold]
        generalize List.foldl _ _ (m.generalTypes d) = r at hpath ⊢
        split
        · exact ⟨rfl, hpath⟩
        · rw [close_eq hpath]
          exact ⟨rfl, fun e he => hpath e (List.mem_of_mem_drop he)⟩
    · simp only [htype, Bool.not_false, if_true]
      exact ⟨rfl, hw⟩

theorem askCategories_eq (h : Coherent m) (hd : m.contains d) :
    askCategories m d = some (m.askCategories d) := by
  have hwalk := (visit_eq h (m.size + 1) (w := { memos := m.memos }) hd (by simp)).1
  rw [askCategories, hwalk, Model.askCategories, if_pos hd]
  rfl

private theorem askOwnerCategories_eq (h : Coherent m) (hd : m.contains d) :
    askOwnerCategories m d = some (m.askOwnerCategories d) := by
  rw [askOwnerCategories, Model.facts?_eq hd, Model.askOwnerCategories]
  simp only [Option.bind_eq_bind, Option.bind_some, Model.facts]
  cases ho : m.owner d with
  | none => rfl
  | some o => exact askCategories_eq h (h.forest.contains_owner ho)

theorem isOwnedBy_eq (h : m.WellFormed) (p : Metaclass → Bool) :
    isOwnedBy m (m.owner d) p = some ((m.owner d).any fun o => p (m.metaclass o)) := by
  cases ho : m.owner d with
  | none => rfl
  | some o =>
    rw [isOwnedBy, Model.facts?_eq (h.contains_owner ho)]
    rfl

private theorem askRole_eq (h : Coherent m) (hd : m.contains d) : askRole m d = some (m.askRole d) := by
  have howner := askOwnerCategories_eq h hd
  have hsame := Model.askOwnerCategories_sameButMemos m d
  rw [askRole, bind_of_eq_some (Model.facts?_eq hd), Model.askRole]
  simp only [Model.facts]
  by_cases hrelationship : (m.metaclass d).isRelationship
  · simp only [hrelationship, if_true]
    rfl
  · simp only [hrelationship, Bool.false_eq_true, if_false]
    by_cases hfeature : (m.metaclass d).isFeature
    · simp only [hfeature, Bool.not_true, Bool.false_eq_true, if_false]
      rw [bind_of_eq_some howner]
      generalize m.askOwnerCategories d = r at hsame ⊢
      obtain ⟨owners, n⟩ := r
      have hforest : n.toForest = m.toForest := hsame.sameEdges.forest
      have hn : Coherent n := h.of_sameEdges hsame.sameEdges
      have hown := askCategories_eq hn (by rw [hforest]; exact hd)
      cases hkind : m.metaclass d
      case step =>
        simp only
        rw [← hforest, isOwnedBy_eq hn.forest]
        rfl
      case expression => rfl
      all_goals
        simp only [hown]
        rfl
    · simp only [hfeature, Bool.not_false, if_true]
      rfl

theorem isParticipant_eq (h : m.WellFormed) (hd : m.contains d) :
    isParticipant m d = some (m.isParticipant d) := by
  rw [isParticipant, Model.facts?_eq hd]
  simp only [Option.bind_eq_bind, Option.bind_some, Model.facts]
  rw [isOwnedBy_eq h]
  rfl

theorem askRoles_eq (h : Coherent m) (hd : m.contains d) : askRoles m d = some (m.askRoles d) := by
  rw [askRoles, askGeneral, Model.facts?_eq hd, Model.askRoles]
  simp only [Option.bind_eq_bind, Option.bind_some, Model.facts]
  by_cases hwritten : m.hasWrittenSupertype d
  · have hheld := hwritten
    rw [Model.hasWrittenSupertype] at hheld
    simp only [hwritten, hheld, if_true, Option.pure_def, Option.bind_some,
      isParticipant_eq h.forest hd]
  · have hheld := hwritten
    rw [Model.hasWrittenSupertype] at hheld
    have hsame := Model.askRole_sameButMemos m d
    simp only [hwritten, hheld, Bool.false_eq_true, if_false, askRole_eq h hd, Option.bind_some,
      Option.pure_def]
    generalize m.askRole d = r at hsame ⊢
    have hforest : r.2.toForest = m.toForest := hsame.sameEdges.forest
    have hn : Coherent r.2 := h.of_sameEdges hsame.sameEdges
    rw [isParticipant_eq hn.forest (by rw [hforest]; exact hd)]
    rfl

end Kerml.Guarded
