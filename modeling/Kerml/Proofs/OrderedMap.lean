import Kerml.OrderedMap
import Mathlib.Data.List.Perm.Subperm

/-!
# What ordered maps hold

What a map holds after entries have been put and erased, and when two maps agree. Everything is
said by what the maps hold under each key.
-/
namespace Kerml.OrderedMap

theorem eq_of_entries {κ υ : Type} {m n : OrderedMap κ υ} (h : m.entries = n.entries) : m = n := by
  cases m
  cases n
  subst h
  rfl

variable {κ υ : Type} [DecidableEq κ] {m n : OrderedMap κ υ} {k : κ} {v : υ}

theorem get?_eq_some_iff : m.get? k = some v ↔ (k, v) ∈ m.entries := by
  rw [get?, List.lookup_eq_some_iff]
  constructor
  · rintro ⟨before, after, hentries, -⟩
    simp [hentries]
  · intro hmem
    obtain ⟨before, after, hentries⟩ := List.append_of_mem hmem
    refine ⟨before, after, hentries, fun e he => ?_⟩
    -- the key comes once only
    have hnodup := m.nodup_keys
    rw [hentries, List.map_append, List.nodup_append] at hnodup
    have hne := hnodup.2.2 e.1 (List.mem_map_of_mem he) k (by simp)
    simpa using Ne.symm hne

theorem get?_eq_none_iff : m.get? k = none ↔ k ∉ m.entries.map (·.1) := by
  rw [get?, List.lookup_eq_none_iff]
  simp only [bne_iff_ne, List.mem_map, not_exists, not_and]
  exact forall₂_congr fun e _ => ne_comm

theorem lookup_cons_eq_ite (l : κ) (e : κ × υ) (rest : List (κ × υ)) :
    (e :: rest).lookup l = if e.1 = l then some e.2 else rest.lookup l := by
  obtain ⟨a, b⟩ := e
  by_cases h : a = l
  · simp [h]
  · simp [List.lookup_cons, h, beq_eq_false_iff_ne.2 (Ne.symm h)]

private theorem lookup_putEntry (k l : κ) (v : υ) (entries : List (κ × υ)) :
    (putEntry k v entries).lookup l = if k = l then some v else entries.lookup l := by
  induction entries with
  | nil => exact lookup_cons_eq_ite l (k, v) []
  | cons e rest ih =>
    by_cases he : e.1 = k
    · rw [putEntry, if_pos he, lookup_cons_eq_ite, lookup_cons_eq_ite, he]
      by_cases h : k = l
      · rw [if_pos h, if_pos h]
      · rw [if_neg h, if_neg h, if_neg h]
    · rw [putEntry, if_neg he, lookup_cons_eq_ite, lookup_cons_eq_ite, ih]
      by_cases h : k = l
      · have hl : e.1 ≠ l := fun hl => he (hl.trans h.symm)
        rw [if_neg hl, if_pos h, if_pos h]
      · rw [if_neg h, if_neg h]

theorem get?_put (m : OrderedMap κ υ) (k l : κ) (v : υ) :
    (m.put k v).get? l = if k = l then some v else m.get? l :=
  lookup_putEntry k l v m.entries

theorem get?_erase (m : OrderedMap κ υ) (k l : κ) :
    (m.erase k).get? l = if k = l then none else m.get? l := by
  by_cases h : k = l
  · rw [if_pos h, get?_eq_none_iff]
    simp [erase, h]
  · rw [if_neg h]
    have hl : l ≠ k := Ne.symm h
    refine Option.ext fun v => ?_
    rw [get?_eq_some_iff, get?_eq_some_iff]
    simp [erase, hl]

theorem eq_empty_iff : m = ∅ ↔ ∀ k, m.get? k = none := by
  constructor
  · rintro rfl k
    rfl
  · intro h
    refine eq_of_entries (List.eq_nil_iff_forall_not_mem.2 fun e he => ?_)
    cases (h e.1).symm.trans (get?_eq_some_iff.2 he)

omit [DecidableEq κ] in
theorem isEmpty_iff : m.isEmpty ↔ m = ∅ := by
  rw [isEmpty, List.isEmpty_iff]
  exact ⟨fun h => eq_of_entries h, fun h => h ▸ rfl⟩

omit [DecidableEq κ] in
theorem size_eq_zero_iff : m.size = 0 ↔ m = ∅ := by
  rw [size, List.length_eq_zero_iff, ← isEmpty_iff, isEmpty, List.isEmpty_iff]

/-- Entries whose keys are new come after what a map holds, in their order. -/
theorem entries_foldl_put (entries : List (κ × υ)) (m : OrderedMap κ υ)
    (h : ((m.entries ++ entries).map (·.1)).Nodup) :
    (entries.foldl (fun m e => m.put e.1 e.2) m).entries = m.entries ++ entries := by
  induction entries generalizing m with
  | nil => simp
  | cons e rest ih =>
    have hnew : e.1 ∉ m.entries.map (·.1) := by
      rw [List.map_append, List.nodup_append] at h
      intro hmem
      exact h.2.2 e.1 hmem e.1 (by simp) rfl
    have hput : ∀ held : List (κ × υ), e.1 ∉ held.map (·.1) →
        putEntry e.1 e.2 held = held ++ [e] := by
      intro held
      induction held with
      | nil => simp [putEntry]
      | cons f held ih =>
        intro hf
        rw [List.map_cons, List.mem_cons, not_or] at hf
        rw [putEntry, if_neg (Ne.symm hf.1), ih hf.2, List.cons_append]
    have hfirst : (m.put e.1 e.2).entries = m.entries ++ [e] := hput m.entries hnew
    rw [List.foldl_cons, ih, hfirst, List.append_assoc, List.singleton_append]
    rwa [hfirst, List.append_assoc, List.singleton_append]

/-- A map is made again from its entries. -/
theorem ofList_entries (m : OrderedMap κ υ) : ofList m.entries = m :=
  eq_of_entries (entries_foldl_put m.entries ∅ m.nodup_keys)

/-- Maps agree if they hold related values, or nothing, under each key. -/
theorem agrees_iff {related : υ → υ → Bool} :
    m.agrees related n ↔ ∀ k, Option.Rel (fun a b => related a b) (m.get? k) (n.get? k) := by
  rw [agrees, Bool.and_eq_true, beq_iff_eq, List.all_eq_true]
  constructor
  · rintro ⟨hsize, hall⟩ k
    have hfound : ∀ {k a}, m.get? k = some a → ∃ b, n.get? k = some b ∧ related a b := by
      intro k a ha
      have h := hall _ (get?_eq_some_iff.1 ha)
      rwa [Option.any_eq_true] at h
    have hsub : m.entries.map (·.1) ⊆ n.entries.map (·.1) := by
      intro l hl
      obtain ⟨a, ha⟩ := Option.ne_none_iff_exists'.1 fun h => get?_eq_none_iff.1 h hl
      obtain ⟨b, hb, -⟩ := hfound ha
      exact List.mem_map_of_mem (get?_eq_some_iff.1 hb)
    -- there are as many keys on the right, and so no others
    have hperm := (m.nodup_keys.subperm hsub).perm_of_length_le
      (by rw [List.length_map, List.length_map]; exact Nat.le_of_eq hsize.symm)
    cases ha : m.get? k with
    | some a =>
      obtain ⟨b, hb, hab⟩ := hfound ha
      rw [hb]
      exact .some hab
    | none =>
      rw [get?_eq_none_iff.2 (hperm.mem_iff.not.1 (get?_eq_none_iff.1 ha))]
      exact .none
  · intro h
    have hnone : ∀ k, m.get? k = none ↔ n.get? k = none := by
      intro k
      have hk := h k
      generalize m.get? k = a at hk
      generalize n.get? k = b at hk
      cases hk <;> simp
    have hkeys : ∀ k, k ∈ m.entries.map (·.1) ↔ k ∈ n.entries.map (·.1) := by
      intro k
      rw [← not_iff_not, ← get?_eq_none_iff, ← get?_eq_none_iff]
      exact hnone k
    refine ⟨?_, fun e he => ?_⟩
    · have hperm := (List.perm_ext_iff_of_nodup m.nodup_keys n.nodup_keys).2 hkeys
      simpa [size] using hperm.length_eq
    · have hk := h e.1
      rw [get?_eq_some_iff.2 he] at hk
      generalize n.get? e.1 = b at hk
      cases hk with
      | some hrelated => exact hrelated

private theorem rel_eq_iff {a b : Option υ} [DecidableEq υ] :
    Option.Rel (fun x y => (x == y) = true) a b ↔ a = b := by
  constructor
  · rintro (h | _)
    · rw [eq_of_beq h]
    · rfl
  · rintro rfl
    cases a with
    | none => exact .none
    | some x => exact .some (beq_self_eq_true x)

/-- Maps that agree in the narrow sense hold the same. -/
theorem agrees_beq_iff [DecidableEq υ] :
    m.agrees (· == ·) n ↔ ∀ k, m.get? k = n.get? k :=
  agrees_iff.trans (forall_congr' fun _ => rel_eq_iff)

end Kerml.OrderedMap
