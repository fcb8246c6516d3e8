import Kerml.Proofs.Distinct
import Kerml.Specialization.Store
import Mathlib.Data.Finset.Card

/-!
# Stores of specializations against the calls on them

The calls alone say what a store holds and what it answers. The answers that it remembers show in
nothing but their number.
-/
namespace Kerml

/-- A kind includes another one if it has all of its marks. -/
theorem SpecializationKind.includes_iff {k q : SpecializationKind} :
    k.includes q ↔ ∀ i : Fin 7, q.marks[i] → k.marks[i] := by
  rw [includes, beq_iff_eq, BitVec.eq_of_getElem_eq_iff]
  simp [Fin.forall_iff]

inductive StoreCall
  | add (s : Specialization)
  | query (q : SpecializationKind)
  | toward? (general : ElementId)
  | hasWritten (q : SpecializationKind)
  | clear
deriving DecidableEq, Repr

def SpecializationStore.perform (store : SpecializationStore) : StoreCall → SpecializationStore
  | .add s => (store.add s).2
  | .query q => (store.query q).2
  | .clear => store.clear
  | .toward? _ | .hasWritten _ => store

namespace StoreCall

/-- The store after calls on an empty one. -/
def after (calls : List StoreCall) : SpecializationStore :=
  calls.foldr (fun c store => store.perform c) {}

/-- What has been added since the store was cleared last, in order. -/
def additions : List StoreCall → List Specialization
  | [] | .clear :: _ => []
  | .add s :: earlier => additions earlier ++ [s]
  | _ :: earlier => additions earlier

/-- The queries since the last call that changed the store: that cleared it, or that added a
specialization of a general type for the first time. -/
def queries : List StoreCall → List SpecializationKind
  | [] | .clear :: _ => []
  | .add s :: earlier =>
    if (additions earlier).any (·.general == s.general) then queries earlier else []
  | .query q :: earlier => queries earlier ++ [q]
  | _ :: earlier => queries earlier

def firsts (calls : List StoreCall) : List Specialization :=
  distinctBy (·.general) (additions calls)

variable {calls : List StoreCall}

theorem any_firsts (t : ElementId) :
    (firsts calls).any (·.general == t) = (additions calls).any (·.general == t) := by
  have hkeys : t ∈ (firsts calls).map (·.general) ↔ t ∈ (additions calls).map (·.general) :=
    mem_map_distinctBy
  rw [Bool.eq_iff_iff]
  simpa using hkeys

/-- A further addition counts if it is the first one of its general type. -/
theorem firsts_add (s : Specialization) :
    firsts (.add s :: calls) = Specialization.record (firsts calls) s := by
  have hknown : s.general ∈ (additions calls).map (·.general) ↔
      (firsts calls).any (·.general == s.general) := by
    rw [any_firsts]
    simp
  rw [firsts, additions, distinctBy_concat, Specialization.record]
  exact if_congr hknown rfl rfl

/-- The store in which the answers to certain queries are remembered, and no others. -/
def answering (held : List Specialization) (qs : List SpecializationKind) :
    SpecializationStore where
  held := held
  answers := (distinct qs).map fun q => (q, Specialization.matching held q)

private theorem lookup_answers (held : List Specialization) (qs : List SpecializationKind)
    (q : SpecializationKind) : (answering held qs).answers.lookup q =
      if q ∈ qs then some (Specialization.matching held q) else none := by
  by_cases hq : q ∈ qs
  · rw [if_pos hq]
    exact List.lookup_graph (Specialization.matching held) (mem_distinct.2 hq)
  · rw [if_neg hq, List.lookup_eq_none_iff]
    intro p hp
    obtain ⟨r, hr, rfl⟩ := List.mem_map.1 hp
    have hne : q ≠ r := fun hqr => hq (hqr ▸ mem_distinct.1 hr)
    simpa using hne

/-- A query is answered as it would be without the memory, and is remembered. -/
theorem query_answering (held : List Specialization) (qs : List SpecializationKind)
    (q : SpecializationKind) : (answering held qs).query q =
      (Specialization.matching held q, answering held (qs ++ [q])) := by
  have hqs : distinct (qs ++ [q]) = if q ∈ qs.map id then distinct qs else distinct qs ++ [q] :=
    distinctBy_concat qs q
  rw [List.map_id] at hqs
  rw [SpecializationStore.query, lookup_answers]
  by_cases hq : q ∈ qs
  · simp only [if_pos hq, answering, hqs]
  · simp only [if_neg hq, answering, hqs, List.map_append, List.map_cons, List.map_nil]

/-- An addition of a known general type changes nothing. Any other one forgets the answers. -/
theorem add_answering (held : List Specialization) (qs : List SpecializationKind)
    (s : Specialization) : (answering held qs).add s =
      if held.any (·.general == s.general) then (false, answering held qs)
      else (true, answering (Specialization.record held s) []) := rfl

/-- A store holds the first additions since it was cleared, and remembers the answers to the queries
since it changed last. -/
theorem after_eq_answering (calls : List StoreCall) :
    after calls = answering (firsts calls) (queries calls) := by
  induction calls with
  | nil => rfl
  | cons c earlier ih =>
    have hstep : after (c :: earlier) = (after earlier).perform c := rfl
    rw [hstep, ih]
    cases c with
    | add s =>
      rw [SpecializationStore.perform, add_answering, firsts_add, queries, any_firsts]
      by_cases hs : (additions earlier).any (·.general == s.general)
      · rw [if_pos hs, if_pos hs, Specialization.record, any_firsts, if_pos hs]
      · rw [if_neg hs, if_neg hs]
    | query q =>
      rw [SpecializationStore.perform, query_answering]
      rfl
    | toward? t => rfl
    | hasWritten q => rfl
    | clear => rfl

private theorem length_distinct (qs : List SpecializationKind) :
    (distinct qs).length = qs.toFinset.card := by
  rw [← List.toFinset_card_of_nodup (distinct_nodup qs)]
  congr 1
  ext q
  simp only [List.mem_toFinset, mem_distinct]

/-- A store answers as if it remembered nothing, from the first addition of each general type since
it was cleared. It remembers one answer for each kind that has been queried since it changed last. -/
theorem after_answers (calls : List StoreCall) :
    (after calls).held = firsts calls ∧
    (∀ s, ((after calls).add s).1 ↔ ∀ x ∈ additions calls, x.general ≠ s.general) ∧
    (∀ q, ((after calls).query q).1 =
      (firsts calls).filter fun s : Specialization => ∀ i : Fin 7, q.marks[i] → s.kind.marks[i]) ∧
    (∀ t, (after calls).toward? t = (additions calls).find? (·.general == t)) ∧
    (∀ q, (after calls).hasWritten q ↔ ∃ s ∈ ((after calls).query q).1, ¬ s.isImplied) ∧
    (after calls).answerCount = (queries calls).toFinset.card := by
  rw [after_eq_answering]
  refine ⟨rfl, fun s => ?_, fun q => ?_, fun t => ?_, fun q => ?_, ?_⟩
  · rw [add_answering, any_firsts]
    split <;> simp_all
  · rw [query_answering]
    refine List.filter_congr fun s _ => ?_
    rw [Bool.eq_iff_iff, SpecializationKind.includes_iff, decide_eq_true_eq]
  · exact find?_distinctBy (additions calls) t
  · rw [query_answering]
    simp only [SpecializationStore.hasWritten, answering, Specialization.hasWritten,
      Specialization.matching, List.any_eq_true, List.mem_filter]
    grind
  · rw [← length_distinct]
    exact List.length_map _

/-- An addition that comes after another one of the same general type neither counts nor forgets. -/
example : (after [.add { general := ⟨0⟩, kind := .redefinition }, .query .subsetting,
    .add { general := ⟨0⟩, kind := .subsetting }]).answerCount = 1 := by decide

end StoreCall
end Kerml
