import Kerml.Proofs.Link.Steps

/-!
# The models that can come about

They come from an empty model by commands that are carried out and queries whose answers are
remembered. In all of them containment is well-formed, and only types hold specializations, of
declarations that are known.
-/
namespace Kerml

/-- A change to a model. -/
inductive Command
  | addRoot (declaration : Declaration)
  | add (owner : ElementId) (declaration : Declaration)
  | request (d : ElementId) (r : Request)
  | clearRequests (d : ElementId)
  | addImport (d : ElementId) (i : Import)
  | setName (d : ElementId) (name : Option String)
  | link
  | reset (d : ElementId)
  | relink (d : ElementId)
deriving Repr

/-- A query whose answer is remembered. All others leave a model as it is. -/
inductive Query
  | categories (d : ElementId)
  | allCategories
  | name (d : ElementId)
  | names
deriving Repr

namespace Model

/-- The model after a command, unless the command is refused. -/
def perform (m : Model) : Command → Except BuildError Model
  | .addRoot declaration => .ok (m.addRoot declaration).2
  | .add owner declaration => (m.add owner declaration).map (·.2)
  | .request d r => m.request d r
  | .clearRequests d => m.clearRequests d
  | .addImport d i => m.addImport d i
  | .setName d name => m.setName d name
  | .link => .ok m.link
  | .reset d => m.reset d
  | .relink d => m.relink d

def performAll (m : Model) (cs : List Command) : Model :=
  cs.foldl (fun m c => (m.perform c).toOption.getD m) m

def ask (m : Model) : Query → Model
  | .categories d => (m.askCategories d).2
  | .allCategories => m.askAllCategories.2
  | .name d => ((m.askName? d).map (·.2)).getD m
  | .names => m.askNames.2

def askAll (m : Model) (qs : List Query) : Model :=
  qs.foldl ask m

/-- The models that commands and queries lead to from an empty model with any library. A refused
command changes nothing. -/
inductive Reachable : Model → Prop
  | empty (library : SupertypeTable) : Reachable { library }
  | perform {m n : Model} (h : Reachable m) (c : Command) (hc : m.perform c = .ok n) : Reachable n
  | ask {m : Model} (h : Reachable m) (q : Query) : Reachable (m.ask q)

theorem exists_of_map_eq_ok {α β : Type} {x : Except BuildError α} {f : α → β} {b : β}
    (h : x.map f = .ok b) : ∃ a, x = .ok a ∧ f a = b := by
  cases x with
  | error e => cases h
  | ok a => exact ⟨a, rfl, Except.ok.inj h⟩

/-- Containment is well-formed, and only types hold specializations, of known declarations. -/
structure Coherent (m : Model) : Prop where
  forest : m.WellFormed
  isType_of_edge : ∀ {d s}, s ∈ m.specializations.get d → m.isType d
  contains_general : ∀ {d s}, s ∈ m.specializations.get d → m.contains s.general

namespace Coherent

variable {m n : Model}

theorem empty (library : SupertypeTable) : Coherent { library } where
  forest := .empty
  isType_of_edge hs := absurd hs List.not_mem_nil
  contains_general hs := absurd hs List.not_mem_nil

theorem grow (h : Coherent m) {f : Forest} (hf : f.WellFormed) (hg : m.Grows f) :
    Coherent (m.withForest f) where
  forest := hf
  isType_of_edge hs := hg.isType (h.isType_of_edge hs)
  contains_general hs := hg.contains (h.contains_general hs)

theorem of_subset (h : Coherent m) (hf : n.toForest = m.toForest)
    (hs : ∀ d, n.specializations.get d ⊆ m.specializations.get d) : Coherent n where
  forest := hf ▸ h.forest
  isType_of_edge hmem := hf ▸ h.isType_of_edge (hs _ hmem)
  contains_general hmem := hf ▸ h.contains_general (hs _ hmem)

theorem of_sameEdges (h : Coherent m) (hn : SameEdges m n) : Coherent n :=
  h.of_subset hn.forest fun d => by rw [hn.specializations]; exact List.Subset.refl _

/-- Recording specializations of known declarations for a type keeps a model coherent. -/
theorem record (h : Coherent m) (hf : n.toForest = m.toForest) {d : ElementId}
    {es : List Specialization}
    (hget : ∀ e, n.specializations.get e =
      if d = e then es.foldl Specialization.record (m.specializations.get d)
      else m.specializations.get e)
    (hes : ∀ s ∈ es, m.isType d ∧ m.contains s.general) : Coherent n := by
  have hmem : ∀ {e s}, s ∈ n.specializations.get e → s ∈ m.specializations.get e ∨
      d = e ∧ s ∈ es := by
    intro e s hs
    rw [hget] at hs
    split at hs
    · rename_i hde
      rcases Specialization.mem_of_mem_foldl_record hs with hs | hs
      · exact Or.inl (hde ▸ hs)
      · exact Or.inr ⟨hde, hs⟩
    · exact Or.inl hs
  constructor
  · exact hf ▸ h.forest
  · intro e s hs
    rw [hf]
    rcases hmem hs with hheld | ⟨rfl, hadded⟩
    · exact h.isType_of_edge hheld
    · exact (hes s hadded).1
  · intro e s hs
    rw [hf]
    rcases hmem hs with hheld | ⟨-, hadded⟩
    · exact h.contains_general hheld
    · exact (hes s hadded).2

theorem applyRequests (h : Coherent m) (d : ElementId) : Coherent (m.applyRequests d) := by
  refine h.record (applyRequests_sameNames m d).forest (applyRequests_get m d) ?_
  intro s hs
  obtain ⟨r, hr, hasked⟩ := List.mem_filterMap.1 hs
  obtain ⟨t, ht, rfl⟩ := Option.map_eq_some_iff.1 hasked
  exact ⟨h.forest.isType_of_request hr, contains_of_bind? h.forest hr ht⟩

theorem addSupertypes (h : Coherent m) (d : ElementId) : Coherent (m.addSupertypes d) := by
  by_cases hd : m.isType d
  · refine h.record (addSupertypes_sameNames m d).forest (fun e => addSupertypes_get hd) ?_
    intro s hs
    obtain ⟨r, -, himplied⟩ := List.mem_filterMap.1 hs
    obtain ⟨path, -, hpath⟩ := Option.bind_eq_some_iff.1 himplied
    obtain ⟨t, ht, hst⟩ := Option.bind_eq_some_iff.1 hpath
    split at hst
    · cases hst
    · cases hst
      exact ⟨hd, contains_of_find? h.forest ht⟩
  · rw [addSupertypes_of_not_isType hd]
    exact h

theorem checkImports (h : Coherent m) (d : ElementId) : Coherent (m.checkImports d) :=
  h.of_subset rfl fun _ => List.Subset.refl _

theorem foldl {step : Model → ElementId → Model} (hstep : ∀ {m}, Coherent m → ∀ d,
    Coherent (step m d)) (h : Coherent m) (ds : List ElementId) : Coherent (ds.foldl step m) :=
  List.foldlRecOn ds step h fun _ hm d _ => hstep hm d

theorem takeNames (h : Coherent m) (ds : List ElementId) : Coherent (m.takeNames ds) :=
  h.of_sameEdges (takeNames_sameEdges m ds)

theorem unlinked (h : Coherent m) : Coherent m.unlinked :=
  h.of_subset rfl fun _ => by simp [Model.unlinked]; exact List.nil_subset _

theorem link (h : Coherent m) : Coherent m.link := by
  let order := m.preorder
  have requested : Coherent (order.foldl Model.applyRequests m.unlinked) :=
    h.unlinked.foldl (fun h d => h.applyRequests d) order
  have implied : Coherent (order.foldl Model.addSupertypes
      ((order.foldl Model.applyRequests m.unlinked).takeNames order)) :=
    (requested.takeNames order).foldl (fun h d => h.addSupertypes d) order
  have checked := implied.foldl (fun h d => h.checkImports d) order
  exact checked.of_subset rfl fun _ => List.Subset.refl _

theorem reset (h : Coherent m) {d : ElementId} (hn : m.reset d = .ok n) : Coherent n := by
  simp only [Model.reset] at hn
  split at hn
  · cases hn
  · cases hn
    refine h.of_subset rfl fun e => ?_
    change (m.specializations.put d []).get e ⊆ _
    rw [Column.get_put]
    split
    · exact List.nil_subset _
    · exact List.Subset.refl _

theorem relink (h : Coherent m) {d : ElementId} (hn : m.relink d = .ok n) : Coherent n := by
  simp only [Model.relink] at hn
  split at hn
  · cases hn
  · cases hn
    have checked := (((h.applyRequests d).takeNames [d]).addSupertypes d).checkImports d
    exact checked.of_subset rfl fun _ => List.Subset.refl _

theorem perform (h : Coherent m) {c : Command} (hc : m.perform c = .ok n) : Coherent n := by
  cases c with
  | addRoot declaration =>
    cases hc
    exact h.grow (h.forest.addRoot declaration) (Forest.grows_addRoot declaration)
  | add owner declaration =>
    obtain ⟨p, hp, rfl⟩ := exists_of_map_eq_ok hc
    obtain ⟨f, hf, rfl⟩ := exists_of_map_eq_ok hp
    exact h.grow (h.forest.add hf) (Forest.grows_add hf)
  | request d r =>
    obtain ⟨f, hf, rfl⟩ := exists_of_map_eq_ok hc
    exact h.grow (h.forest.request hf) (Forest.grows_request hf)
  | clearRequests d =>
    obtain ⟨f, hf, rfl⟩ := exists_of_map_eq_ok hc
    exact h.grow (h.forest.clearRequests hf) (Forest.grows_clearRequests hf)
  | addImport d i =>
    obtain ⟨f, hf, rfl⟩ := exists_of_map_eq_ok hc
    exact h.grow (h.forest.addImport hf) (Forest.grows_addImport hf)
  | setName d name =>
    obtain ⟨f, hf, rfl⟩ := exists_of_map_eq_ok hc
    exact (h.grow (h.forest.setName hf) (Forest.grows_setName hf)).of_subset rfl
      fun _ => List.Subset.refl _
  | link =>
    cases hc
    exact h.link
  | reset d => exact h.reset hc
  | relink d => exact h.relink hc

end Coherent

section Queries
variable {m : Model}

theorem askAllCategories_snd (m : Model) :
    m.askAllCategories.2 = m.ids.foldl (fun m d => (m.askCategories d).2) m :=
  (List.foldl_hom Prod.snd fun _ _ => rfl).symm

theorem askAllCategories_sameButMemos (m : Model) : SameButMemos m m.askAllCategories.2 := by
  rw [askAllCategories_snd]
  exact foldl_rel SameButMemos.refl SameButMemos.trans askCategories_sameButMemos m.ids m

theorem rememberName_sameEdges (m : Model) (d : ElementId) : SameEdges m (m.rememberName d) :=
  ⟨rfl, rfl, rfl, rfl⟩

theorem ask_sameEdges (m : Model) (q : Query) : SameEdges m (m.ask q) := by
  cases q with
  | categories d => exact (askCategories_sameButMemos m d).sameEdges
  | allCategories => exact (askAllCategories_sameButMemos m).sameEdges
  | name d =>
    rw [ask, askName?]
    split <;> exact ⟨rfl, rfl, rfl, rfl⟩
  | names => exact SameEdges.foldl rememberName_sameEdges m.ids m

theorem askAll_sameEdges (m : Model) (qs : List Query) : SameEdges m (m.askAll qs) :=
  SameEdges.foldl ask_sameEdges qs m

end Queries

theorem Reachable.performAll {m : Model} (h : Reachable m) (cs : List Command) :
    Reachable (m.performAll cs) := by
  induction cs generalizing m with
  | nil => exact h
  | cons c cs ih =>
    have hnext : Reachable ((m.perform c).toOption.getD m) := by
      cases hc : m.perform c with
      | error e => exact h
      | ok n => exact h.perform c hc
    exact ih hnext

/-- Every model that can come about is coherent. -/
theorem Reachable.coherent {m : Model} (h : Reachable m) : Coherent m := by
  induction h with
  | empty library => exact .empty library
  | perform _ c hc ih => exact ih.perform hc
  | ask _ q ih => exact ih.of_sameEdges (ask_sameEdges _ q)

end Model
end Kerml
