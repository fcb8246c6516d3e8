import Kerml.Forest.Unlisted
import Mathlib.Tactic.Common

/-! # Reading a forest after an operation -/
namespace Kerml.Forest

theorem contains_iff {f : Forest} {d : ElementId} : f.contains d ↔ d.index < f.size := by
  simp [contains]

theorem element?_eq_none {f : Forest} {d : ElementId} (h : ¬ f.contains d) : f.element? d = none :=
  Array.getElem?_eq_none (Nat.le_of_not_lt (mt contains_iff.2 h))

theorem exists_element?_of_contains {f : Forest} {d : ElementId} (h : f.contains d) :
    ∃ e, f.element? d = some e :=
  ⟨_, Array.getElem?_eq_some_iff.2 ⟨contains_iff.1 h, rfl⟩⟩

theorem contains_nextId {f : Forest} : ¬ f.contains f.nextId := by
  simp [contains, nextId]

theorem ne_nextId {f : Forest} {d : ElementId} (h : f.contains d) : d ≠ f.nextId := by
  rintro rfl
  exact contains_nextId h

section Fields
variable {f : Forest} {d : ElementId} {e : Element}

theorem requests_of_element? (h : f.element? d = some e) : f.requests d = e.requests := by
  simp [requests, h]

theorem contains_of_owner {o : ElementId} (h : f.owner d = some o) : f.contains d := by
  by_contra hd
  simp [owner, element?_eq_none hd] at h

theorem contains_of_isType (h : f.isType d) : f.contains d := by
  by_contra hd
  simp [isType, metaclass, declaration?, element?_eq_none hd, Metaclass.isType,
    Metaclass.capabilities] at h

theorem isType_of_isFeature (h : (f.metaclass d).isFeature) : f.isType d := by
  revert h
  rw [isType]
  cases f.metaclass d <;> decide

end Fields

@[simp] theorem size_modify (f : Forest) (d : ElementId) (change : Element → Element) :
    (f.modify d change).size = f.size := by
  simp [modify, size]

@[simp] theorem contains_modify (f : Forest) (d e : ElementId) (change : Element → Element) :
    (f.modify d change).contains e = f.contains e := by
  simp [contains]

theorem nextId_modify (f : Forest) (d : ElementId) (change : Element → Element) :
    (f.modify d change).nextId = f.nextId := by
  simp [nextId]

theorem element?_modify (f : Forest) (d e : ElementId) (change : Element → Element) :
    (f.modify d change).element? e = if d = e then (f.element? e).map change else f.element? e := by
  simp only [modify, element?, Array.getElem?_modify]
  by_cases h : d = e
  · simp [h]
  · rw [if_neg h, if_neg fun hi => h (ElementId.eq_of_index hi)]

theorem owner_modify (f : Forest) (d c : ElementId) (change : Element → Element)
    (howner : ∀ e, (change e).owner = e.owner) : (f.modify d change).owner c = f.owner c := by
  simp only [owner, element?_modify]
  split
  · cases f.element? c <;> simp [howner]
  · rfl

theorem members_modify (f : Forest) (d c : ElementId) (change : Element → Element)
    (hmembers : ∀ e, (change e).members = e.members) :
    (f.modify d change).members c = f.members c := by
  simp only [members, element?_modify]
  split
  · cases f.element? c <;> simp [hmembers]
  · rfl

theorem declaration?_modify (f : Forest) (d c : ElementId) (change : Element → Element)
    (hdeclaration : ∀ e, (change e).declaration = e.declaration) :
    (f.modify d change).declaration? c = f.declaration? c := by
  simp only [declaration?, element?_modify]
  split
  · cases f.element? c <;> simp [hdeclaration]
  · rfl

private theorem requests_modify (f : Forest) (d c : ElementId) (change : Element → Element)
    (hrequests : ∀ e, (change e).requests = e.requests) :
    (f.modify d change).requests c = f.requests c := by
  simp only [requests, element?_modify]
  split
  · cases f.element? c <;> simp [hrequests]
  · rfl

theorem isType_modify (f : Forest) (d c : ElementId) (change : Element → Element)
    (hkind : ∀ e, (change e).declaration.metaclass = e.declaration.metaclass) :
    (f.modify d change).isType c = f.isType c := by
  simp only [isType, metaclass, declaration?, element?_modify]
  split
  · cases f.element? c <;> simp [hkind]
  · rfl

/-- A forest with one more element. -/
def push (f : Forest) (e : Element) : Forest :=
  { f with elements := f.elements.push e }

private theorem size_push (f : Forest) (e : Element) : (f.push e).size = f.size + 1 := by
  simp [push, size]

theorem contains_push {f : Forest} {e : Element} {d : ElementId} :
    (f.push e).contains d ↔ f.contains d ∨ d = f.nextId := by
  rw [contains_iff, contains_iff, size_push]
  constructor
  · intro h
    rcases Nat.lt_succ_iff_lt_or_eq.1 h with h | h
    · exact Or.inl h
    · exact Or.inr (ElementId.eq_of_index h)
  · rintro (h | rfl)
    · exact Nat.lt_succ_of_lt h
    · exact Nat.lt_succ_self _

theorem element?_push (f : Forest) (e : Element) (d : ElementId) :
    (f.push e).element? d = if d = f.nextId then some e else f.element? d := by
  simp only [push, element?, Array.getElem?_push]
  by_cases h : d = f.nextId
  · simp [h, nextId, size]
  · have hi : d.index ≠ f.elements.size := fun hi => h (ElementId.eq_of_index hi)
    rw [if_neg h, if_neg hi]

section Growth
variable {f : Forest} {e : Element}

theorem owner_push (f : Forest) (e : Element) (d : ElementId) :
    (f.push e).owner d = if d = f.nextId then e.owner else f.owner d := by
  simp only [owner, element?_push]
  split <;> rfl

theorem members_push (he : e.members = []) (d : ElementId) :
    (f.push e).members d = f.members d := by
  simp only [members, element?_push]
  split
  · rename_i hd
    simp [hd, element?_eq_none contains_nextId, he]
  · rfl

theorem requests_push (he : e.requests = []) (d : ElementId) :
    (f.push e).requests d = f.requests d := by
  simp only [requests, element?_push]
  split
  · rename_i hd
    simp [hd, element?_eq_none contains_nextId, he]
  · rfl

theorem isType_push {d : ElementId} (h : f.isType d) : (f.push e).isType d := by
  have hd := ne_nextId (contains_of_isType h)
  simpa [isType, metaclass, declaration?, element?_push, hd] using h

end Growth

/-- Adding a member succeeds for a known owner only, and then enters the new handle with it. -/
theorem eq_of_add {f g : Forest} {o : ElementId} {declaration : Declaration}
    (h : f.add o declaration = .ok g) :
    f.contains o ∧ g = (f.modify o (·.addMember f.nextId declaration.modifiers.isEnd)).push
      { declaration, owner := some o } := by
  simp only [add] at h
  split at h
  · cases h
  · rename_i ho
    split at h
    · cases h
    · injection h with h
      exact ⟨by simpa using ho, h.symm⟩

/-- A request is written down for a type only, and a handle that it names is known. -/
theorem eq_of_request {f g : Forest} {d : ElementId} {r : Request} (h : f.request d r = .ok g) :
    f.isType d ∧ (∀ t, r.target = .element t → f.contains t) ∧
      g = f.modify d fun e => { e with requests := e.requests ++ [r] } := by
  simp only [request] at h
  split at h
  · cases h
  · split at h
    · cases h
    · rename_i hunknown
      split at h
      · cases h
      · rename_i htype
        injection h with h
        refine ⟨by simpa using htype, fun t ht => ?_, h.symm⟩
        by_contra hc
        simp [unknownTarget?, ht, hc] at hunknown

theorem eq_of_clearRequests {f g : Forest} {d : ElementId} (h : f.clearRequests d = .ok g) :
    g = f.modify d fun e => { e with requests := [] } := by
  simp only [clearRequests] at h
  split at h
  · cases h
  · injection h with h
    exact h.symm

theorem eq_of_addImport {f g : Forest} {d : ElementId} {i : Import}
    (h : f.addImport d i = .ok g) :
    g = f.modify d fun e => { e with imports := e.imports ++ [i] } := by
  simp only [addImport] at h
  split at h
  · cases h
  · split at h
    · cases h
    · injection h with h
      exact h.symm

theorem eq_of_setName {f g : Forest} {d : ElementId} {name : Option String}
    (h : f.setName d name = .ok g) :
    g = f.modify d fun e => { e with declaration := { e.declaration with name } } := by
  simp only [setName] at h
  split at h
  · cases h
  · injection h with h
    exact h.symm

section Added
variable {f g : Forest} {d o : ElementId} {declaration : Declaration}

theorem owner_addRoot (f : Forest) (declaration : Declaration) (d : ElementId) :
    (f.addRoot declaration).owner d = f.owner d := by
  change (f.push { declaration }).owner d = f.owner d
  rw [owner_push]
  split
  · rename_i hd
    simp [hd, owner, element?_eq_none contains_nextId]
  · rfl

theorem members_addRoot (f : Forest) (declaration : Declaration) (d : ElementId) :
    (f.addRoot declaration).members d = f.members d :=
  members_push rfl d

theorem requests_addRoot (f : Forest) (declaration : Declaration) (d : ElementId) :
    (f.addRoot declaration).requests d = f.requests d :=
  requests_push rfl d

theorem contains_addRoot :
    (f.addRoot declaration).contains d ↔ f.contains d ∨ d = f.nextId :=
  contains_push

theorem isType_addRoot (h : f.isType d) : (f.addRoot declaration).isType d :=
  isType_push h

theorem owner_add (h : f.add o declaration = .ok g) (d : ElementId) :
    g.owner d = if d = f.nextId then some o else f.owner d := by
  obtain ⟨-, rfl⟩ := eq_of_add h
  rw [owner_push, nextId_modify]
  split
  · rfl
  · exact owner_modify f o d _ fun _ => rfl

theorem members_add (h : f.add o declaration = .ok g) (d : ElementId) :
    g.members d = if d = o then f.members d ++ [f.nextId] else f.members d := by
  obtain ⟨hknown, rfl⟩ := eq_of_add h
  rw [members_push rfl]
  simp only [members, element?_modify, eq_comm (a := d)]
  split
  · rename_i hd
    obtain ⟨e, he⟩ := exists_element?_of_contains hknown
    simp [← hd, he, Element.addMember]
  · rfl

theorem requests_add (h : f.add o declaration = .ok g) (d : ElementId) :
    g.requests d = f.requests d := by
  obtain ⟨-, rfl⟩ := eq_of_add h
  rw [requests_push rfl]
  exact requests_modify f o d _ fun _ => rfl

theorem contains_add (h : f.add o declaration = .ok g) :
    g.contains d ↔ f.contains d ∨ d = f.nextId := by
  obtain ⟨-, rfl⟩ := eq_of_add h
  rw [contains_push, contains_modify, nextId_modify]

theorem isType_add (h : f.add o declaration = .ok g) (hd : f.isType d) : g.isType d := by
  obtain ⟨-, rfl⟩ := eq_of_add h
  apply isType_push
  exact (isType_modify f o d (·.addMember f.nextId _) fun _ => rfl).trans hd

theorem roots_add (h : f.add o declaration = .ok g) : g.roots = f.roots := by
  obtain ⟨-, rfl⟩ := eq_of_add h
  rfl

end Added

/-- Another forest knows what a forest knows, and types are types there. -/
structure Grows (f g : Forest) : Prop where
  contains : ∀ {d}, f.contains d → g.contains d
  isType : ∀ {d}, f.isType d → g.isType d

section Grows
variable {f g : Forest} {d : ElementId}

theorem grows_modify (f : Forest) (d : ElementId) (change : Element → Element)
    (hkind : ∀ e, (change e).declaration.metaclass = e.declaration.metaclass) :
    Grows f (f.modify d change) where
  contains h := (contains_modify ..).trans h
  isType h := (isType_modify f d _ change hkind).trans h

theorem grows_addRoot (declaration : Declaration) : Grows f (f.addRoot declaration) where
  contains h := contains_addRoot.2 (Or.inl h)
  isType := isType_addRoot

theorem grows_add {declaration : Declaration} (h : f.add d declaration = .ok g) : Grows f g where
  contains hd := (contains_add h).2 (Or.inl hd)
  isType := isType_add h

theorem grows_request {r : Request} (h : f.request d r = .ok g) : Grows f g := by
  obtain ⟨-, -, rfl⟩ := eq_of_request h
  exact grows_modify f d _ fun _ => rfl

theorem grows_clearRequests (h : f.clearRequests d = .ok g) : Grows f g :=
  eq_of_clearRequests h ▸ grows_modify f d _ fun _ => rfl

theorem grows_addImport {i : Import} (h : f.addImport d i = .ok g) : Grows f g :=
  eq_of_addImport h ▸ grows_modify f d _ fun _ => rfl

theorem grows_setName {name : Option String} (h : f.setName d name = .ok g) : Grows f g :=
  eq_of_setName h ▸ grows_modify f d _ fun _ => rfl

end Grows
end Kerml.Forest
