import Kerml.ElementId

/-!
# Columns

A value kept for every element: the default, unless another was put.
-/
namespace Kerml

structure Column (α : Type) where
  cells : Array α := #[]
deriving Repr

namespace Column

variable {α : Type} [Inhabited α]

instance : EmptyCollection (Column α) := ⟨{}⟩
instance : Inhabited (Column α) := ⟨∅⟩

def get (c : Column α) (d : ElementId) : α :=
  c.cells.getD d.index default

def put (c : Column α) (d : ElementId) (a : α) : Column α :=
  ⟨(c.cells.rightpad (d.index + 1) default).setIfInBounds d.index a⟩

def clearWhere (c : Column α) (p : ElementId → Bool) : Column α :=
  ⟨c.cells.mapIdx fun i a => if p ⟨i⟩ then default else a⟩

@[simp] theorem get_empty (d : ElementId) : (∅ : Column α).get d = default := rfl

theorem get_put (c : Column α) (d e : ElementId) (a : α) :
    (c.put d a).get e = if d = e then a else c.get e := by
  simp only [get, put, Array.getD_eq_getD_getElem?, Array.getElem?_setIfInBounds,
    Array.size_rightpad]
  by_cases h : d = e
  · subst h
    rw [if_pos rfl, if_pos (by omega), if_pos rfl]
    rfl
  · have hi : ¬ d.index = e.index := fun hi => h (ElementId.eq_of_index hi)
    simp only [h, hi, if_false]
    by_cases he : e.index < c.cells.size
    · simp [Array.rightpad, Array.getElem?_append, he]
    · simp only [Array.rightpad, Array.getElem?_append, he, if_false, Array.getElem?_replicate]
      split <;> simp [Array.getElem?_eq_none (Nat.le_of_not_lt he)]

@[simp] theorem get_put_self (c : Column α) (d : ElementId) (a : α) : (c.put d a).get d = a := by
  simp [get_put]

theorem get_put_of_ne (c : Column α) {d e : ElementId} (h : d ≠ e) (a : α) :
    (c.put d a).get e = c.get e := by
  simp [get_put, h]

/-- Of several values put one after the other, each element has its own. -/
theorem get_foldl_put (c : Column α) (value : ElementId → α) (ds : List ElementId)
    (e : ElementId) : (ds.foldl (fun c d => c.put d (value d)) c).get e =
      if e ∈ ds then value e else c.get e := by
  induction ds generalizing c with
  | nil => simp
  | cons d ds ih =>
    rw [List.foldl_cons, ih, get_put]
    by_cases he : e ∈ ds
    · simp [he]
    · by_cases hd : d = e
      · simp [hd]
      · simp [he, hd, Ne.symm hd]

theorem get_clearWhere (c : Column α) (p : ElementId → Bool) (d : ElementId) :
    (c.clearWhere p).get d = if p d then default else c.get d := by
  simp only [get, clearWhere, Array.getD_eq_getD_getElem?, Array.getElem?_mapIdx]
  cases c.cells[d.index]? <;> simp

end Column
end Kerml
