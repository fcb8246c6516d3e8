import Kerml.Forest

/-!
# Declarations that a walk has not listed yet

Their number bounds what is left of the walk.
-/
namespace Kerml.Forest

def unlisted (f : Forest) (listed : List ElementId) : Nat :=
  f.ids.countP fun d => !listed.contains d

theorem mem_ids_iff {f : Forest} {d : ElementId} : d ∈ f.ids ↔ f.contains d := by
  simp only [ids, contains, List.mem_map, List.mem_range, decide_eq_true_eq]
  constructor
  · rintro ⟨i, hi, rfl⟩
    exact hi
  · exact fun h => ⟨d.index, h, rfl⟩

theorem countP_lt_of_mem {p q : ElementId → Bool} {d : ElementId} {ds : List ElementId}
    (h : ∀ e, p e → q e) (hd : d ∈ ds) (hp : ¬ p d) (hq : q d) : ds.countP p < ds.countP q := by
  induction ds with
  | nil => simp at hd
  | cons e rest ih =>
    have hle : rest.countP p ≤ rest.countP q := List.countP_mono_left fun x _ => h x
    rcases List.mem_cons.1 hd with rfl | hd
    · simp only [List.countP_cons, hp, hq]
      simpa using Nat.lt_succ_of_le hle
    · have := ih hd
      simp only [List.countP_cons]
      by_cases hpe : p e
      · simp only [hpe, h e hpe, if_true]
        omega
      · simp only [hpe]
        simp only [Bool.false_eq_true, if_false]
        split <;> omega

/-- Listing more declarations, a new one among them, leaves fewer to list. -/
theorem unlisted_append_lt (f : Forest) {listed more : List ElementId} {d : ElementId}
    (hf : f.contains d) (hd : ¬ listed.contains d) (hm : d ∈ more) :
    f.unlisted (listed ++ more) < f.unlisted listed := by
  refine countP_lt_of_mem (d := d) ?_ (mem_ids_iff.2 hf) ?_ (by simpa using hd)
  · intro e he
    simp only [List.contains_eq_mem, List.mem_append, Bool.not_eq_true', decide_eq_false_iff_not,
      not_or] at he ⊢
    exact he.1
  · simp [hm]

/-- Listing one more declaration leaves fewer to list. -/
theorem unlisted_cons_lt (f : Forest) {listed : List ElementId} {d : ElementId}
    (hf : f.contains d) (hd : ¬ listed.contains d) :
    f.unlisted (d :: listed) < f.unlisted listed := by
  refine countP_lt_of_mem (d := d) ?_ (mem_ids_iff.2 hf) (by simp) (by simpa using hd)
  intro e he
  simp only [List.contains_eq_mem, List.mem_cons, Bool.not_eq_true', decide_eq_false_iff_not,
    not_or] at he ⊢
  exact he.2

end Kerml.Forest
