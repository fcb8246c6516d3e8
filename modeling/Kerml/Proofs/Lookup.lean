import Kerml.Link
import Kerml.Proofs.Forest.OwnerChain
import Mathlib.Data.List.Induction

/-!
# What lookups depend on and where they lead

Models with the same declarations that go by the same names give the same answers, whatever else
is written down, and what is found is known.
-/
namespace Kerml.Model

/-- What relates a model to the next one relates it to the last one of a run. -/
theorem foldl_rel {α : Type} {R : Model → Model → Prop} (hrefl : ∀ m, R m m)
    (htrans : ∀ {m n k}, R m n → R n k → R m k) {step : Model → α → Model}
    (hstep : ∀ m a, R m (step m a)) (as : List α) (m : Model) : R m (as.foldl step m) := by
  induction as generalizing m with
  | nil => exact hrefl m
  | cons a as ih => exact htrans (hstep m a) (ih _)

/-- A model whose declarations have the places, visibilities and names that they have in another one.
Everything else that is written down or derived may differ. -/
structure SamePlaces (m n : Model) : Prop where
  size : n.size = m.size
  owner : n.owner = m.owner
  members : n.members = m.members
  roots : n.roots = m.roots
  visibility : n.visibility = m.visibility
  declaredName : n.declaredName = m.declaredName
  shortName : n.shortName = m.shortName
  takenNames : n.takenNames.get = m.takenNames.get

namespace SamePlaces

variable {m n : Model}

theorem effectiveName (h : SamePlaces m n) : n.effectiveName = m.effectiveName := by
  funext d
  simp only [Model.effectiveName, h.declaredName, h.takenNames]

theorem answersTo (h : SamePlaces m n) : n.answersTo = m.answersTo := by
  funext d name
  simp only [Model.answersTo, h.effectiveName, h.shortName]

theorem globals (h : SamePlaces m n) : n.globals = m.globals := by
  simp only [Model.globals, h.effectiveName, h.roots, h.members]

theorem memberNamed? (h : SamePlaces m n) : n.memberNamed? = m.memberNamed? := by
  funext d name
  simp only [Model.memberNamed?, h.answersTo, h.members]

theorem ownerChain (h : SamePlaces m n) : n.ownerChain = m.ownerChain :=
  funext fun _ => Forest.ownerChain_congr fun e _ => congrFun h.owner e

theorem lookupLexical? (h : SamePlaces m n) : n.lookupLexical? = m.lookupLexical? := by
  funext site name
  simp only [Model.lookupLexical?, Model.enclosing, h.memberNamed?, h.globals, h.answersTo,
    h.ownerChain]

theorem sees (h : SamePlaces m n) : n.sees = m.sees := by
  funext site d member
  simp only [Model.sees, Model.enclosing, h.visibility, h.ownerChain]

theorem descend (h : SamePlaces m n) : n.descend = m.descend := by
  funext site d path
  induction path generalizing d with
  | nil => rfl
  | cons name rest ih =>
    rw [Model.descend, Model.descend, h.memberNamed?, h.sees]
    cases m.memberNamed? d name with
    | none => rfl
    | some member => simp only [ih]

theorem lookup (h : SamePlaces m n) : n.lookup = m.lookup := by
  funext site path
  cases path with
  | nil => rfl
  | cons name rest => simp only [Model.lookup, h.lookupLexical?, h.descend]

theorem importTarget? (h : SamePlaces m n) : n.importTarget? = m.importTarget? := by
  funext d i
  simp only [Model.importTarget?, h.lookup]

end SamePlaces

/-- A model with the declarations and the names of another one, whose library leads to the same
paths. Specializations, memos and the report may differ. -/
structure SameNames (m n : Model) : Prop where
  forest : n.toForest = m.toForest
  pathFor? : n.library.pathFor? = m.library.pathFor?
  takenNames : n.takenNames.get = m.takenNames.get
  knownNames : n.knownNames.get = m.knownNames.get

namespace SameNames

variable {m n k : Model}

theorem refl (m : Model) : SameNames m m := ⟨rfl, rfl, rfl, rfl⟩

theorem trans (h : SameNames m n) (h' : SameNames n k) : SameNames m k :=
  ⟨h'.forest.trans h.forest, h'.pathFor?.trans h.pathFor?,
    h'.takenNames.trans h.takenNames, h'.knownNames.trans h.knownNames⟩

theorem symm (h : SameNames m n) : SameNames n m :=
  ⟨h.forest.symm, h.pathFor?.symm, h.takenNames.symm, h.knownNames.symm⟩

theorem foldl {α : Type} {step : Model → α → Model} (hstep : ∀ m a, SameNames m (step m a))
    (as : List α) (m : Model) : SameNames m (as.foldl step m) :=
  foldl_rel refl trans hstep as m

theorem samePlaces (h : SameNames m n) : SamePlaces m n := by
  constructor <;> simp only [h.forest, h.takenNames]

theorem effectiveName (h : SameNames m n) : n.effectiveName = m.effectiveName :=
  h.samePlaces.effectiveName

theorem lookup (h : SameNames m n) : n.lookup = m.lookup :=
  h.samePlaces.lookup

theorem bind? (h : SameNames m n) : n.bind? = m.bind? := by
  funext d r
  simp only [Model.bind?, h.lookup, h.forest]

theorem find? (h : SameNames m n) : n.find? = m.find? := by
  funext text
  simp only [Model.find?, h.lookup]

theorem qualifiedName (h : SameNames m n) : n.qualifiedName = m.qualifiedName := by
  funext d
  induction hi : d.index using Nat.strongRecOn generalizing d with
  | _ i ih =>
    rw [Model.qualifiedName, Model.qualifiedName]
    simp only [h.knownNames, h.forest, h.effectiveName]
    split
    · rfl
    · split
      · rename_i o _
        split
        · rename_i hlt
          rw [ih o.index (hi ▸ hlt) o rfl]
        · rfl
      · rfl

theorem importProblem? (h : SameNames m n) : n.importProblem? = m.importProblem? := by
  funext d i
  simp only [Model.importProblem?, h.lookup, h.qualifiedName]

end SameNames

section Paths
variable {m : Model} {site : Option ElementId} {d t : ElementId} {name : String}
  {path upper lower : List String}

/-- The last segment of a path is looked up among the members of what the others lead to. -/
theorem descend_concat_eq_found_iff : m.descend site d (path ++ [name]) = .found t ↔
    ∃ o, m.descend site d path = .found o ∧ m.memberNamed? o name = some t ∧ m.sees site o t := by
  induction path generalizing d with
  | nil =>
    rw [List.nil_append, descend]
    cases hmember : m.memberNamed? d name with
    | none => simp [descend, hmember]
    | some c =>
      by_cases hsees : m.sees site d c
      · simp only [hsees, if_true, descend, Lookup.found.injEq, exists_eq_left', hmember,
          Option.some.injEq]
        constructor
        · rintro rfl
          exact ⟨rfl, hsees⟩
        · exact And.left
      · simp only [hsees, descend, Lookup.found.injEq, exists_eq_left', hmember, Option.some.injEq]
        constructor
        · intro hhidden
          cases hhidden
        · rintro ⟨rfl, hseen⟩
          exact absurd hseen hsees
  | cons first rest ih =>
    rw [List.cons_append, descend, descend]
    cases m.memberNamed? d first with
    | none => simp
    | some c => by_cases hsees : m.sees site d c <;> simp [hsees, ih]

theorem lookup_singleton_eq_found_iff :
    m.lookup site [name] = .found t ↔ m.lookupLexical? site name = some t := by
  cases hfirst : m.lookupLexical? site name <;> simp [lookup, descend, hfirst]

theorem lookup_concat_eq_found_iff (hpath : path ≠ []) :
    m.lookup site (path ++ [name]) = .found t ↔
      ∃ o, m.lookup site path = .found o ∧ m.memberNamed? o name = some t ∧ m.sees site o t := by
  obtain ⟨first, rest, rfl⟩ := List.exists_cons_of_ne_nil hpath
  rw [List.cons_append, lookup, lookup]
  cases m.lookupLexical? site first with
  | none => simp
  | some d => exact descend_concat_eq_found_iff

/-- A path leads somewhere only if what it starts with does. -/
theorem exists_found_of_append (hupper : upper ≠ [])
    (ht : m.lookup site (upper ++ lower) = .found t) : ∃ d, m.lookup site upper = .found d := by
  induction lower using List.reverseRecOn generalizing t with
  | nil =>
    rw [List.append_nil] at ht
    exact ⟨t, ht⟩
  | append_singleton lower name ih =>
    have hne : upper ++ lower ≠ [] := List.append_ne_nil_of_left_ne_nil hupper lower
    rw [← List.append_assoc, lookup_concat_eq_found_iff hne] at ht
    obtain ⟨o, ho, -⟩ := ht
    exact ih ho

end Paths

section Known
variable {m : Model}

theorem contains_of_memberNamed? (h : m.WellFormed) {d c : ElementId} {name : String}
    (hc : m.memberNamed? d name = some c) : m.contains c :=
  h.contains_member (List.mem_of_find?_eq_some hc)

theorem contains_of_mem_globals (h : m.WellFormed) {d : ElementId} (hd : d ∈ m.globals) :
    m.contains d := by
  obtain ⟨r, hr, hd⟩ := List.mem_flatMap.1 hd
  split at hd
  · rw [List.mem_singleton.1 hd]
    exact (h.mem_roots_iff.1 hr).1
  · exact h.contains_member hd

theorem contains_of_lookupLexical? (h : m.WellFormed) {site : Option ElementId} {name : String}
    {d : ElementId} (hd : m.lookupLexical? site name = some d) : m.contains d := by
  rcases Option.or_eq_some_iff.1 hd with hd | ⟨-, hd⟩
  · obtain ⟨o, -, ho⟩ := List.exists_of_findSome?_eq_some hd
    exact contains_of_memberNamed? h ho
  · exact contains_of_mem_globals h (List.mem_of_find?_eq_some hd)

theorem contains_of_lookup (h : m.WellFormed) {site : Option ElementId} {path : List String}
    {t : ElementId} (ht : (m.lookup site path).found? = some t) : m.contains t := by
  rw [Lookup.found?_eq_some_iff] at ht
  rcases List.eq_nil_or_concat' path with rfl | ⟨upper, name, rfl⟩
  · cases ht
  · by_cases hupper : upper = []
    · rw [hupper, List.nil_append, lookup_singleton_eq_found_iff] at ht
      exact contains_of_lookupLexical? h ht
    · obtain ⟨o, -, hmember, -⟩ := (lookup_concat_eq_found_iff hupper).1 ht
      exact contains_of_memberNamed? h hmember

theorem contains_of_find? (h : m.WellFormed) {text : String} {t : ElementId}
    (ht : m.find? text = some t) : m.contains t := by
  obtain ⟨path, -, hpath⟩ := Option.bind_eq_some_iff.1 ht
  exact contains_of_lookup h hpath

theorem contains_of_bind? (h : m.WellFormed) {d t : ElementId} {r : Request}
    (hr : r ∈ m.requests d) (ht : m.bind? d r = some t) : m.contains t := by
  simp only [bind?] at ht
  split at ht
  · rename_i t' htarget
    cases ht
    exact h.contains_target hr htarget
  · exact contains_of_lookup h ht

theorem contains_of_importTarget? (h : m.WellFormed) {d t : ElementId} {i : Import}
    (ht : m.importTarget? d i = some t) : m.contains t :=
  contains_of_lookup h ht

end Known
end Kerml.Model
