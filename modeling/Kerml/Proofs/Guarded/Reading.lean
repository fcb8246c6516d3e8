import Kerml.Model
import Kerml.Proofs.Forest.OwnerChain

/-!
# Reading that gives up on unknown handles

What a model holds of a declaration is read as a whole, and there is nothing to read under a
handle that the model never gave out. Functions that read in this way have an answer only if all
handles that they come across are known.
-/
namespace Kerml

section Answers
variable {α β : Type}

theorem bind_of_eq_some {x : Option α} {a : α} {f : α → Option β} (h : x = some a) :
    (x >>= f) = f a := by
  rw [h]
  rfl

theorem mapM_eq_some {f : α → Option β} {g : α → β} {as : List α}
    (h : ∀ a ∈ as, f a = some (g a)) : as.mapM f = some (as.map g) := by
  induction as with
  | nil => rfl
  | cons a as ih =>
    rw [List.mapM_cons, h a List.mem_cons_self, ih fun b hb => h b (List.mem_cons_of_mem a hb)]
    rfl

theorem flatMapM_eq_some {f : α → Option (List β)} {g : α → List β} {as : List α}
    (h : ∀ a ∈ as, f a = some (g a)) : as.flatMapM f = some (as.flatMap g) := by
  induction as with
  | nil => rfl
  | cons a as ih =>
    rw [List.flatMapM_cons, h a List.mem_cons_self, ih fun b hb => h b (List.mem_cons_of_mem a hb)]
    rfl

theorem filterMapM_eq_some {f : α → Option (Option β)} {g : α → Option β} {as : List α}
    (h : ∀ a ∈ as, f a = some (g a)) : as.filterMapM f = some (as.filterMap g) := by
  induction as with
  | nil => rfl
  | cons a as ih =>
    rw [List.filterMapM_cons, h a List.mem_cons_self,
      ih fun b hb => h b (List.mem_cons_of_mem a hb), List.filterMap_cons]
    cases g a <;> rfl

theorem findM?_eq_some {p : α → Option Bool} {q : α → Bool} {as : List α}
    (h : ∀ a ∈ as, p a = some (q a)) : as.findM? p = some (as.find? q) := by
  induction as with
  | nil => rfl
  | cons a as ih =>
    rw [List.findM?, h a List.mem_cons_self, ih fun b hb => h b (List.mem_cons_of_mem a hb),
      List.find?_cons]
    cases q a <;> rfl

theorem findSomeM?_eq_some {f : α → Option (Option β)} {g : α → Option β} {as : List α}
    (h : ∀ a ∈ as, f a = some (g a)) : as.findSomeM? f = some (as.findSome? g) := by
  induction as with
  | nil => rfl
  | cons a as ih =>
    rw [List.findSomeM?_cons, h a List.mem_cons_self,
      ih fun b hb => h b (List.mem_cons_of_mem a hb), List.findSome?_cons]
    cases g a <;> rfl

/-- A run has an answer if each step from a state with some property has one, and keeps it. -/
theorem foldlM_eq_some {f : β → α → Option β} {g : β → α → β} (P : β → Prop) {as : List α}
    (hstep : ∀ b, P b → ∀ a ∈ as, f b a = some (g b a) ∧ P (g b a)) {b : β} (hb : P b) :
    as.foldlM f b = some (as.foldl g b) ∧ P (as.foldl g b) := by
  induction as generalizing b with
  | nil => exact ⟨rfl, hb⟩
  | cons a as ih =>
    obtain ⟨hfirst, hnext⟩ := hstep b hb a List.mem_cons_self
    rw [List.foldlM_cons, hfirst]
    exact ih (fun c hc x hx => hstep c hc x (List.mem_cons_of_mem a hx)) hnext

end Answers

/-- All that a model holds of a declaration. -/
structure Facts where
  metaclass : Metaclass
  effectiveName : Option String
  shortName : Option String
  visibility : Visibility
  span : Option Span
  modifiers : Modifiers
  owner : Option ElementId
  members : List ElementId
  ends : List ElementId
  imports : List Import
  requests : List Request
  specializations : List Specialization
  memo : CategoryMemo
  knownName : Option String

def Facts.answersTo (x : Facts) (name : String) : Bool :=
  x.effectiveName == some name || x.shortName == some name

namespace Model

/-- What a model holds of a declaration. There is no answer under an unknown handle. -/
def facts? (m : Model) (d : ElementId) : Option Facts :=
  (m.element? d).map fun e =>
    { metaclass := e.declaration.metaclass
      effectiveName := e.declaration.name.or (m.takenNames.get d)
      shortName := e.declaration.shortName
      visibility := e.declaration.visibility
      span := e.declaration.span
      modifiers := e.declaration.modifiers
      owner := e.owner
      members := e.members
      ends := e.ends
      imports := e.imports
      requests := e.requests
      specializations := m.specializations.get d
      memo := m.memos.get d
      knownName := m.knownNames.get d }

/-- What a model holds of a declaration, in terms of the functions that always have an answer. -/
def facts (m : Model) (d : ElementId) : Facts where
  metaclass := m.metaclass d
  effectiveName := m.effectiveName d
  shortName := m.shortName d
  visibility := m.visibility d
  span := m.span d
  modifiers := m.modifiers d
  owner := m.owner d
  members := m.members d
  ends := m.ends d
  imports := m.imports d
  requests := m.requests d
  specializations := m.specializations.get d
  memo := m.memos.get d
  knownName := m.knownNames.get d

theorem facts?_eq {m : Model} {d : ElementId} (hd : m.contains d) :
    m.facts? d = some (m.facts d) := by
  obtain ⟨e, he⟩ : ∃ e, m.element? d = some e := by
    have hlt : d.index < m.elements.size := Forest.contains_iff.1 hd
    exact ⟨m.elements[d.index], Array.getElem?_eq_getElem hlt⟩
  simp [facts?, facts, he, Forest.metaclass, effectiveName, Forest.declaredName, Forest.shortName,
    Forest.visibility, Forest.span, Forest.modifiers, Forest.owner, Forest.members, Forest.ends,
    Forest.imports, Forest.requests, Forest.declaration?]

theorem facts?_eq_none {m : Model} {d : ElementId} (hd : ¬ m.contains d) : m.facts? d = none := by
  have hlt : m.elements.size ≤ d.index := Nat.le_of_not_lt fun h => hd (Forest.contains_iff.2 h)
  rw [facts?, Forest.element?, Array.getElem?_eq_none hlt]
  rfl

end Model

namespace Guarded

def chain (m : Model) (d : ElementId) : Option (List ElementId) := do
  match (← m.facts? d).owner with
  | some o => if _h : o.index < d.index then return d :: (← chain m o) else none
  | none => return [d]
termination_by d.index

def encloses (m : Model) (ancestor d : ElementId) : Option Bool := do
  return (← chain m d).contains ancestor

def subtree (m : Model) (d : ElementId) : Option (List ElementId) := do
  return d :: (← (← m.facts? d).members.flatMapM fun c =>
    if _h : d.index < c.index ∧ c.index < m.size then subtree m c else none)
termination_by m.size - d.index

def preorder (m : Model) : Option (List ElementId) :=
  m.roots.flatMapM (subtree m)

def membersFor (m : Model) (d : ElementId) (a : Audience) : Option (List ElementId) := do
  (← m.facts? d).members.filterMapM fun c => do
    return if (← m.facts? c).visibility.admits a then some c else none

variable {m : Model} {d : ElementId}

theorem chain_eq (h : m.WellFormed) (hd : m.contains d) : chain m d = some (m.ownerChain d) := by
  induction hn : d.index using Nat.strongRecOn generalizing d with
  | _ n ih =>
    rw [chain, Model.facts?_eq hd, h.ownerChain_eq]
    simp only [Option.bind_eq_bind, Option.bind_some, Model.facts]
    cases ho : m.owner d with
    | none => rfl
    | some o =>
      have hlt := h.owner_lt ho
      simp only [hlt, dite_true, ih o.index (hn ▸ hlt) (h.contains_owner ho) rfl]
      rfl

theorem encloses_eq (h : m.WellFormed) (hd : m.contains d) (o : ElementId) :
    encloses m o d = some (m.encloses o d) := by
  rw [encloses, chain_eq h hd]
  rfl

theorem subtree_eq (h : m.WellFormed) (hd : m.contains d) : subtree m d = some (m.subtree d) := by
  induction d using h.members_induction with
  | step d ih =>
    have hbelow : ((m.members d).flatMapM fun c =>
        if _h : d.index < c.index ∧ c.index < m.size then subtree m c else none) =
        some ((m.members d).flatMap m.subtree) := by
      refine flatMapM_eq_some fun c hc => ?_
      have hc' := h.contains_member hc
      rw [dif_pos ⟨h.lt_of_mem_members hc, Forest.contains_iff.1 hc'⟩]
      exact ih c hc hc'
    rw [subtree, Model.facts?_eq hd, h.subtree_eq]
    simp only [Option.bind_eq_bind, Option.bind_some, Model.facts, hbelow]
    rfl

theorem preorder_eq (h : m.WellFormed) : preorder m = some m.preorder :=
  flatMapM_eq_some fun _ hr => subtree_eq h (h.mem_roots_iff.1 hr).1

theorem membersFor_eq (h : m.WellFormed) (hd : m.contains d) (a : Audience) :
    membersFor m d a = some (m.membersFor d a) := by
  have hmembers : ((m.members d).filterMapM fun c => do
      return if (← m.facts? c).visibility.admits a then some c else none) =
      some ((m.members d).filterMap fun c =>
        if (m.visibility c).admits a then some c else none) :=
    filterMapM_eq_some fun c hc => by rw [Model.facts?_eq (h.contains_member hc)]; rfl
  rw [membersFor, Model.facts?_eq hd]
  refine hmembers.trans ?_
  rw [Forest.membersFor, ← List.filterMap_eq_filter]
  rfl

end Guarded
end Kerml
