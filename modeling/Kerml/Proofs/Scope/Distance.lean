import Kerml.Proofs.Scope.Entries
import Mathlib.Order.Bounds.Basic

/-!
# How far the supertypes of a declaration are

Going from ring to ring meets every supertype after the least number of specializations that lead
to it, however many ways there are and in whatever order the supertypes are found by going deep
first.
-/
namespace Kerml

open Relation

namespace Model

/-- Followed specializations lead from a declaration to another one in so many steps. The first of
them belongs to the declaration itself. -/
inductive Climbs (m : Model) (v : Viewpoint) (d : ElementId) : Nat → ElementId → Prop
  | start : Climbs m v d 0 d
  | step {n : Nat} {a t : ElementId} (h : Climbs m v d n a) (ht : m.Follows v (n == 0) a t) :
      Climbs m v d (n + 1) t

def IsDistance (m : Model) (v : Viewpoint) (d : ElementId) (n : Nat) (t : ElementId) : Prop :=
  IsLeast {k | m.Climbs v d k t} n

variable {m : Model} {v : Viewpoint} {d a t : ElementId} {k n : Nat}

private theorem Climbs.inherits (h : m.Climbs v d (n + 1) t) : m.Inherits v d t := by
  induction n generalizing t with
  | zero =>
    cases h with
    | step h ht =>
      cases h
      exact ⟨t, ht, .refl⟩
  | succ n ih =>
    cases h with
    | step h ht =>
      obtain ⟨b, hdb, hba⟩ := ih h
      exact ⟨b, hdb, hba.tail ht⟩

private theorem exists_climbs_iff : (∃ n, m.Climbs v d n t) ↔ t = d ∨ m.Inherits v d t := by
  constructor
  · rintro ⟨n, h⟩
    cases n with
    | zero =>
      cases h
      exact Or.inl rfl
    | succ n => exact Or.inr h.inherits
  · rintro (rfl | ⟨b, hdb, hbt⟩)
    · exact ⟨0, .start⟩
    · have hclimbs : ∃ n, m.Climbs v d (n + 1) t := by
        induction hbt with
        | refl => exact ⟨0, .step .start hdb⟩
        | tail _ ht ih =>
          obtain ⟨n, h⟩ := ih
          exact ⟨n + 1, .step h ht⟩
      obtain ⟨n, h⟩ := hclimbs
      exact ⟨n + 1, h⟩

private theorem exists_isDistance_iff : (∃ n, m.IsDistance v d n t) ↔ t = d ∨ m.Inherits v d t := by
  rw [← exists_climbs_iff]
  constructor
  · rintro ⟨n, h⟩
    exact ⟨n, h.1⟩
  · intro h
    classical
    exact ⟨Nat.find h, Nat.find_spec h, fun k hk => Nat.find_min' h hk⟩

/-- A declaration that specializes another one nearer by would follow the same specialization. -/
theorem Climbs.step_of_lt (h : m.Climbs v d k a) (hk : k < n) (ht : m.Follows v (n == 0) a t) :
    m.Climbs v d (k + 1) t := by
  have hfar : (n == 0) = false := by simpa using Nat.ne_of_gt (Nat.zero_lt_of_lt hk)
  rw [hfar] at ht
  refine .step h ?_
  cases hnear : k == 0 with
  | false => exact ht
  | true => exact ht.own

/-- The last step to what is at some distance comes from what is one step nearer. -/
theorem IsDistance.exists_nearer (h : m.IsDistance v d (n + 1) t) :
    ∃ a, m.IsDistance v d n a ∧ m.Follows v (n == 0) a t := by
  obtain ⟨hclimbs, hleast⟩ := h
  cases hclimbs with
  | @step _ a _ ha ht =>
    refine ⟨a, ⟨ha, fun k hk => ?_⟩, ht⟩
    by_contra hlt
    have hless := hleast (Climbs.step_of_lt hk (Nat.lt_of_not_le hlt) ht)
    omega

private theorem IsDistance.exists_of_le (h : m.IsDistance v d n t) (hk : k ≤ n) :
    ∃ a, m.IsDistance v d k a := by
  induction n generalizing t with
  | zero => exact ⟨t, Nat.le_zero.1 hk ▸ h⟩
  | succ n ih =>
    rcases Nat.lt_or_eq_of_le hk with hlt | rfl
    · obtain ⟨a, ha, -⟩ := h.exists_nearer
      exact ih ha (Nat.le_of_lt_succ hlt)
    · exact ⟨t, h⟩

theorem mem_nextRing_iff (hm : Coherent m) {isOwn : Bool} {known ring : List ElementId} :
    t ∈ m.nextRing v isOwn known ring ↔ (∃ a ∈ ring, m.Follows v isOwn a t) ∧ t ∉ known := by
  simp only [nextRing, mem_distinct, List.mem_filter, List.mem_flatMap, List.mem_map, ← follows_iff,
    Bool.and_eq_true, Bool.not_eq_true', List.contains_eq_mem, decide_eq_false_iff_not]
  constructor
  · rintro ⟨hring, -, hnew⟩
    exact ⟨hring, hnew⟩
  · rintro ⟨⟨a, ha, hat⟩, hnew⟩
    obtain ⟨s, hs, rfl⟩ := follows_iff.1 hat
    exact ⟨⟨a, ha, hat⟩, contains_of_mem_followed hm hs, hnew⟩

/-- What is known once the rings up to a distance have been met: everything up to that distance,
and in the last ring what is exactly so far. -/
structure Ringed (m : Model) (v : Viewpoint) (d : ElementId) (k : Nat)
    (known ring : List ElementId) : Prop where
  mem_known_iff : ∀ t, t ∈ known ↔ ∃ n ≤ k, m.Climbs v d n t
  mem_ring_iff : ∀ t, t ∈ ring ↔ m.IsDistance v d k t

namespace Ringed

variable {known ring : List ElementId}

theorem start (m : Model) (v : Viewpoint) (d : ElementId) : Ringed m v d 0 [d] [d] := by
  have hzero : ∀ t, t ∈ [d] ↔ m.Climbs v d 0 t := by
    intro t
    rw [List.mem_singleton]
    constructor
    · rintro rfl
      exact .start
    · rintro ⟨⟩
      rfl
  constructor
  · intro t
    simp only [hzero, Nat.le_zero, exists_eq_left]
  · intro t
    rw [hzero]
    exact ⟨fun h => ⟨h, fun _ _ => Nat.zero_le _⟩, fun h => h.1⟩

/-- The next ring is what is one step further. -/
theorem mem_nextRing_iff (h : Ringed m v d k known ring) (hm : Coherent m) :
    t ∈ m.nextRing v (k == 0) known ring ↔ m.IsDistance v d (k + 1) t := by
  rw [Model.mem_nextRing_iff hm, h.mem_known_iff]
  constructor
  · rintro ⟨⟨a, ha, hat⟩, hnew⟩
    have hclimbs : m.Climbs v d (k + 1) t := .step ((h.mem_ring_iff a).1 ha).1 hat
    refine ⟨hclimbs, fun n hn => ?_⟩
    by_contra hlt
    exact hnew ⟨n, by omega, hn⟩
  · intro ht
    obtain ⟨a, ha, hat⟩ := ht.exists_nearer
    refine ⟨⟨a, (h.mem_ring_iff a).2 ha, hat⟩, ?_⟩
    rintro ⟨n, hn, hclimbs⟩
    have hless := ht.2 hclimbs
    omega

theorem next (h : Ringed m v d k known ring) (hm : Coherent m) :
    Ringed m v d (k + 1) (known ++ m.nextRing v (k == 0) known ring)
      (m.nextRing v (k == 0) known ring) := by
  refine ⟨fun t => ?_, fun t => h.mem_nextRing_iff hm⟩
  rw [List.mem_append, h.mem_known_iff, h.mem_nextRing_iff hm]
  constructor
  · rintro (⟨n, hn, hclimbs⟩ | hdistance)
    · exact ⟨n, by omega, hclimbs⟩
    · exact ⟨k + 1, Nat.le_refl _, hdistance.1⟩
  · rintro ⟨n, hn, hclimbs⟩
    by_cases hnear : ∃ n ≤ k, m.Climbs v d n t
    · exact Or.inl hnear
    · refine Or.inr ⟨?_, fun j hj => ?_⟩
      · obtain rfl : n = k + 1 := by
          by_contra hne
          exact hnear ⟨n, by omega, hclimbs⟩
        exact hclimbs
      · by_contra hlt
        exact hnear ⟨j, by omega, hj⟩

private theorem mem_ring_map_iff (h : Ringed m v d k known ring) :
    (t, n) ∈ ring.map (·, k) ↔ n = k ∧ m.IsDistance v d n t := by
  rw [List.mem_map]
  constructor
  · rintro ⟨a, ha, heq⟩
    cases heq
    exact ⟨rfl, (h.mem_ring_iff t).1 ha⟩
  · rintro ⟨rfl, ht⟩
    exact ⟨t, (h.mem_ring_iff t).2 ht, rfl⟩

/-- From some ring on, everything is met at its distance. -/
theorem mem_rings_iff (h : Ringed m v d k known ring) (hm : Coherent m) {isOwn : Bool}
    (hown : isOwn = (k == 0)) :
    (t, n) ∈ m.rings v isOwn k known ring ↔ k ≤ n ∧ m.IsDistance v d n t := by
  fun_induction rings m v isOwn k known ring with
  | case1 isOwn k known ring ih =>
    subst hown
    have hnext := h.next hm
    rw [List.mem_append, h.mem_ring_map_iff]
    split
    · rename_i hlast
      rw [hlast] at hnext
      constructor
      · rintro (⟨rfl, hdistance⟩ | hnone)
        · exact ⟨Nat.le_refl _, hdistance⟩
        · cases hnone
      · rintro ⟨hle, hdistance⟩
        rcases Nat.lt_or_eq_of_le hle with hlt | rfl
        · obtain ⟨a, ha⟩ := hdistance.exists_of_le hlt
          exact absurd ((hnext.mem_ring_iff a).2 ha) List.not_mem_nil
        · exact Or.inl ⟨rfl, hdistance⟩
    · rename_i a more hmore
      rw [hmore] at hnext
      rw [ih a more hmore hnext rfl, ← or_and_right]
      refine and_congr_left fun _ => ?_
      omega

end Ringed

/-- The breadth-first distances are the least numbers of specializations. -/
theorem mem_distances_iff (h : Coherent m) :
    (t, n) ∈ m.distances v d ↔ m.IsDistance v d n t := by
  have hall := (Ringed.start m v d).mem_rings_iff (t := t) (n := n) h rfl
  rwa [and_iff_right (Nat.zero_le n)] at hall

theorem lookup_distances (h : Coherent m) (ht : m.IsDistance v d n t) :
    (m.distances v d).lookup t = some n := by
  have hmem : (t, n) ∈ m.distances v d := (mem_distances_iff h).2 ht
  cases hfound : (m.distances v d).lookup t with
  | none =>
    have hnone := List.lookup_eq_none_iff.1 hfound (t, n) hmem
    simp at hnone
  | some k =>
    obtain ⟨before, after, hsplit, -⟩ := List.lookup_eq_some_iff.1 hfound
    have hk : m.IsDistance v d k t := by
      rw [← mem_distances_iff h, hsplit]
      simp
    rw [hk.unique ht]

/-- Only types are led anywhere by specializations. -/
theorem Inherits.isType (h : Coherent m) (ht : m.Inherits v d t) : m.isType d := by
  obtain ⟨a, ⟨s, hs, -⟩, -⟩ := ht
  exact h.isType_of_edge hs

/-- The breadth-first distances are those of a declaration itself and of all supertypes that are
found by going deep first. -/
theorem exists_mem_distances_iff (h : Coherent m) :
    (∃ n, (t, n) ∈ m.distances v d) ↔ t = d ∨ t ∈ (m.scopeAncestors v d).map (·.element) := by
  simp only [mem_distances_iff h, exists_isDistance_iff, mem_scopeAncestors_iff h]
  by_cases htd : t = d
  · simp [htd]
  · constructor
    · rintro (hself | hinherits)
      · exact absurd hself htd
      · exact Or.inr ⟨hinherits.isType h, htd, hinherits⟩
    · rintro (hself | ⟨-, -, hinherits⟩)
      · exact absurd hself htd
      · exact Or.inr hinherits

end Model
end Kerml
