import Kerml.Proofs.Forest.WellFormed
import Mathlib.Data.List.Nodup
import Mathlib.Logic.Relation

/-!
# Containment in a well-formed forest

A subtree holds what is within its root, once each, and the preorder of the forest holds every
declaration once.
-/
namespace Kerml.Forest

open Relation

def Within (f : Forest) : ElementId → ElementId → Prop :=
  ReflTransGen fun d o => f.owner d = some o

namespace WellFormed

variable {f : Forest}

theorem index_le_of_within (h : f.WellFormed) {d o : ElementId} (hw : f.Within d o) :
    o.index ≤ d.index := by
  induction hw with
  | refl => exact Nat.le_refl _
  | tail _ ho ih => exact Nat.le_trans (Nat.le_of_lt (h.owner_lt ho)) ih

/-- Of two declarations that something is within, one is within the other. -/
theorem within_total {d a b : ElementId} (ha : f.Within d a) (hb : f.Within d b) :
    f.Within a b ∨ f.Within b a :=
  ReflTransGen.total_of_right_unique (fun _ _ _ h h' => Option.some.inj (h.symm.trans h')) ha hb

/-- Nothing is within two members of one declaration. -/
theorem member_unique (h : f.WellFormed) {o a b d : ElementId} (ha : a ∈ f.members o)
    (hb : b ∈ f.members o) (hda : f.Within d a) (hdb : f.Within d b) : a = b := by
  have key : ∀ {x y}, x ∈ f.members o → y ∈ f.members o → f.Within x y → x = y := by
    intro x y hx hy hxy
    rcases ReflTransGen.cases_head hxy with rfl | ⟨p, hp, hpy⟩
    · rfl
    · -- The owner of the one member would be within the other, which it also owns.
      have hpo : p = o := Option.some.inj (hp.symm.trans (h.mem_members_iff.1 hx))
      have hle := h.index_le_of_within hpy
      have hlt := h.lt_of_mem_members hy
      rw [hpo] at hle
      omega
  rcases within_total hda hdb with hab | hba
  · exact key ha hb hab
  · exact (key hb ha hba).symm

/-- A subtree without the bound that makes its definition end. -/
theorem subtree_eq (h : f.WellFormed) (d : ElementId) :
    f.subtree d = d :: (f.members d).flatMap f.subtree := by
  rw [subtree]
  congr 1
  apply List.flatMap_congr
  intro c hc
  exact dif_pos ⟨h.lt_of_mem_members hc, contains_iff.1 (h.contains_member hc)⟩

/-- What holds of a declaration whenever it holds of its members holds of all of them. -/
theorem members_induction (h : f.WellFormed) {p : ElementId → Prop}
    (step : ∀ d, (∀ c ∈ f.members d, p c) → p d) (d : ElementId) : p d := by
  induction hn : f.size - d.index using Nat.strongRecOn generalizing d with
  | _ n ih =>
    refine step d fun c hc => ih _ ?_ c rfl
    have hlt := h.lt_of_mem_members hc
    have hsize := contains_iff.1 (h.contains_member hc)
    omega

theorem mem_subtree_iff (h : f.WellFormed) {d e : ElementId} :
    e ∈ f.subtree d ↔ f.Within e d := by
  induction d using h.members_induction generalizing e with
  | step d ih =>
    rw [h.subtree_eq, List.mem_cons, List.mem_flatMap]
    constructor
    · rintro (rfl | ⟨c, hc, he⟩)
      · exact .refl
      · exact ((ih c hc).1 he).tail (h.mem_members_iff.1 hc)
    · intro he
      rcases ReflTransGen.cases_tail he with rfl | ⟨c, hec, hc⟩
      · exact Or.inl rfl
      · exact Or.inr ⟨c, h.mem_members_iff.2 hc, (ih c (h.mem_members_iff.2 hc)).2 hec⟩

theorem subtree_nodup (h : f.WellFormed) (d : ElementId) : (f.subtree d).Nodup := by
  induction d using h.members_induction with
  | step d ih =>
    rw [h.subtree_eq]
    refine List.nodup_cons.2 ⟨?_, List.nodup_flatMap.2 ⟨ih, ?_⟩⟩
    · intro hd
      obtain ⟨c, hc, hdc⟩ := List.mem_flatMap.1 hd
      have hle := h.index_le_of_within (h.mem_subtree_iff.1 hdc)
      have hlt := h.lt_of_mem_members hc
      omega
    · refine (h.members_nodup d).imp_of_mem ?_
      intro a b ha hb hab e hea heb
      exact hab (h.member_unique ha hb (h.mem_subtree_iff.1 hea) (h.mem_subtree_iff.1 heb))

theorem eq_of_within_of_owner_none {d o : ElementId} (hw : f.Within d o)
    (hd : f.owner d = none) : d = o := by
  rcases ReflTransGen.cases_head hw with rfl | ⟨p, hp, -⟩
  · rfl
  · simp [hd] at hp

theorem exists_root (h : f.WellFormed) {d : ElementId} (hd : f.contains d) :
    ∃ r ∈ f.roots, f.Within d r := by
  induction hn : d.index using Nat.strongRecOn generalizing d with
  | _ n ih =>
    cases ho : f.owner d with
    | none => exact ⟨d, h.mem_roots_iff.2 ⟨hd, ho⟩, .refl⟩
    | some o =>
      obtain ⟨r, hr, hor⟩ := ih o.index (hn ▸ h.owner_lt ho) (h.contains_owner ho) rfl
      exact ⟨r, hr, .head ho hor⟩

theorem mem_preorder_iff (h : f.WellFormed) {d : ElementId} :
    d ∈ f.preorder ↔ f.contains d := by
  simp only [preorder, List.mem_flatMap]
  constructor
  · rintro ⟨r, hr, hd⟩
    rcases ReflTransGen.cases_head (h.mem_subtree_iff.1 hd) with rfl | ⟨o, ho, -⟩
    · exact (h.mem_roots_iff.1 hr).1
    · exact contains_of_owner ho
  · intro hd
    obtain ⟨r, hr, hw⟩ := h.exists_root hd
    exact ⟨r, hr, h.mem_subtree_iff.2 hw⟩

/-- Lists of what is within each root do not overlap. -/
theorem nodup_flatMap_roots (h : f.WellFormed) {listed : ElementId → List ElementId}
    (hnodup : ∀ r, (listed r).Nodup) (hwithin : ∀ r, ∀ d ∈ listed r, f.Within d r) :
    (f.roots.flatMap listed).Nodup := by
  refine List.nodup_flatMap.2 ⟨fun r _ => hnodup r, ?_⟩
  refine h.roots_nodup.imp_of_mem ?_
  intro a b ha hb hab d hda hdb
  have hroot := fun {r} (hr : r ∈ f.roots) => (h.mem_roots_iff.1 hr).2
  rcases within_total (hwithin a d hda) (hwithin b d hdb) with hw | hw
  · exact hab (eq_of_within_of_owner_none hw (hroot ha))
  · exact hab (eq_of_within_of_owner_none hw (hroot hb)).symm

theorem preorder_nodup (h : f.WellFormed) : f.preorder.Nodup :=
  h.nodup_flatMap_roots h.subtree_nodup fun _ _ => h.mem_subtree_iff.1

end WellFormed
end Kerml.Forest
