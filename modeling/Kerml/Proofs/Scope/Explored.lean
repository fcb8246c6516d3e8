import Kerml.Proofs.Reachable
import Kerml.Scope

/-!
# Supertypes in depth-first order

The supertypes that a declaration inherits from come in the order of a depth-first exploration of
the specializations, and they are all that followed specializations lead to, once each.
-/
namespace Kerml

open Relation

/-- Exploring specializations one after the other. What is found at the end of one of them is entered
at once unless it has been visited before. The lists hold what was visited before, what is found and
what has been visited afterwards. -/
inductive Explores (m : Model) (v : Viewpoint) :
    List ElementId → List Specialization → List Ancestor → List ElementId → Prop
  | nil {visited} : Explores m v visited [] [] visited
  | skip {s rest visited found after} (hs : s.general ∈ visited)
      (hrest : Explores m v visited rest found after) :
      Explores m v visited (s :: rest) found after
  | enter {s rest visited above between found after} (hs : s.general ∉ visited)
      (habove : Explores m v (s.general :: visited) (m.followed v false s.general) above between)
      (hrest : Explores m v between rest found after) :
      Explores m v visited (s :: rest) (⟨s.general, !s.isImplied⟩ :: above ++ found) after

namespace Model

/-- Members are inherited along a specialization of the one declaration by the other. A declaration
that is looked at from within follows its own private specializations too. -/
def Follows (m : Model) (v : Viewpoint) (isOwn : Bool) (d t : ElementId) : Prop :=
  ∃ s ∈ m.specializations.get d, s.general = t ∧ s.kind.includes .specialization ∧
    ¬ s.kind.isRedefinition ∧
    (s.visibility = .pub ∨ v = .inside ∧ (isOwn ∨ s.visibility ≠ .priv))

def Inherits (m : Model) (v : Viewpoint) (d t : ElementId) : Prop :=
  ∃ a, m.Follows v true d a ∧ ReflTransGen (m.Follows v false) a t

private theorem follows_visibility_iff (v : Viewpoint) (isOwn : Bool) (a : Visibility) :
    v.follows isOwn a ↔ a = .pub ∨ v = .inside ∧ (isOwn ∨ a ≠ .priv) := by
  cases v <;> cases isOwn <;> cases a <;> decide

theorem follows_iff {m : Model} {v : Viewpoint} {isOwn : Bool} {d t : ElementId} :
    m.Follows v isOwn d t ↔ ∃ s ∈ m.followed v isOwn d, s.general = t := by
  simp only [Follows, followed, specializationsOf, Specialization.matching, List.mem_filter,
    Bool.and_eq_true, Bool.not_eq_true', follows_visibility_iff, Bool.not_eq_true]
  constructor
  · rintro ⟨s, hs, rfl, hkind, hnot, hvisible⟩
    exact ⟨s, ⟨⟨hs, hkind⟩, hnot, hvisible⟩, rfl⟩
  · rintro ⟨s, ⟨⟨hs, hkind⟩, hnot, hvisible⟩, rfl⟩
    exact ⟨s, hs, rfl, hkind, hnot, hvisible⟩

/-- A declaration follows what it would follow as a supertype of another one. -/
theorem Follows.own {m : Model} {v : Viewpoint} {d t : ElementId} (h : m.Follows v false d t) :
    m.Follows v true d t := by
  obtain ⟨s, hs, ht, hkind, hnot, hvisible⟩ := h
  refine ⟨s, hs, ht, hkind, hnot, ?_⟩
  rcases hvisible with hpublic | ⟨hinside, -⟩
  · exact Or.inl hpublic
  · exact Or.inr ⟨hinside, Or.inl rfl⟩

end Model

namespace Explores

variable {m : Model} {v : Viewpoint} {visited after : List ElementId}
  {pending : List Specialization} {found : List Ancestor} {t : ElementId}

theorem mem_elements_iff {a : Ancestor} {above found : List Ancestor} :
    t ∈ (a :: above ++ found).map (·.element) ↔
      t = a.element ∨ t ∈ above.map (·.element) ∨ t ∈ found.map (·.element) := by
  rw [List.map_append, List.map_cons, List.mem_append, List.mem_cons, or_assoc]

theorem mem_after_iff (h : Explores m v visited pending found after) :
    t ∈ after ↔ t ∈ visited ∨ t ∈ found.map (·.element) := by
  induction h with
  | nil => simp
  | skip _ _ ih => exact ih
  | enter _ _ _ ihabove ihrest =>
    rw [ihrest, ihabove, mem_elements_iff, List.mem_cons]
    tauto

/-- What is found had not been visited before, and it is found once. -/
theorem fresh_nodup (h : Explores m v visited pending found after) :
    (∀ t ∈ found.map (·.element), t ∉ visited) ∧ (found.map (·.element)).Nodup := by
  induction h with
  | nil => simp
  | skip _ _ ih => exact ih
  | enter hs habove _ ihabove ihrest =>
    obtain ⟨hfreshabove, hnodupabove⟩ := ihabove
    obtain ⟨hfreshrest, hnoduprest⟩ := ihrest
    constructor
    · intro t ht
      rcases mem_elements_iff.1 ht with rfl | ht | ht
      · exact hs
      · exact fun hv => hfreshabove t ht (List.mem_cons_of_mem _ hv)
      · exact fun hv => hfreshrest t ht (habove.mem_after_iff.2 (Or.inl (List.mem_cons_of_mem _ hv)))
    · rw [List.map_append, List.map_cons]
      refine List.nodup_append.2 ⟨List.nodup_cons.2 ⟨?_, hnodupabove⟩, hnoduprest, ?_⟩
      · exact fun ht => hfreshabove _ ht List.mem_cons_self
      · rintro a ha b hb rfl
        refine hfreshrest a hb (habove.mem_after_iff.2 ?_)
        rcases List.mem_cons.1 ha with rfl | ha
        · exact Or.inl List.mem_cons_self
        · exact Or.inr ha

/-- What is found is at the end of a pending specialization or further up. -/
theorem exists_of_mem (h : Explores m v visited pending found after)
    (ht : t ∈ found.map (·.element)) :
    ∃ s ∈ pending, ReflTransGen (m.Follows v false) s.general t := by
  induction h with
  | nil => simp at ht
  | skip _ _ ih =>
    obtain ⟨s, hs, hst⟩ := ih ht
    exact ⟨s, List.mem_cons_of_mem _ hs, hst⟩
  | enter _ _ _ ihabove ihrest =>
    rcases mem_elements_iff.1 ht with rfl | ht | ht
    · exact ⟨_, List.mem_cons_self, .refl⟩
    · obtain ⟨r, hr, hrt⟩ := ihabove ht
      exact ⟨_, List.mem_cons_self, .head (Model.follows_iff.2 ⟨r, hr, rfl⟩) hrt⟩
    · obtain ⟨r, hr, hrt⟩ := ihrest ht
      exact ⟨r, List.mem_cons_of_mem _ hr, hrt⟩

/-- Afterwards all that the pending specializations lead to has been visited. -/
theorem general_mem_after (h : Explores m v visited pending found after) :
    ∀ s ∈ pending, s.general ∈ after := by
  induction h with
  | nil => simp
  | skip hs hrest ih =>
    intro r hr
    rcases List.mem_cons.1 hr with rfl | hr
    · exact hrest.mem_after_iff.2 (Or.inl hs)
    · exact ih r hr
  | enter _ habove hrest _ ihrest =>
    intro r hr
    rcases List.mem_cons.1 hr with rfl | hr
    · exact hrest.mem_after_iff.2 (Or.inl (habove.mem_after_iff.2 (Or.inl List.mem_cons_self)))
    · exact ihrest r hr

/-- So has all that the found declarations lead to. -/
theorem closed (h : Explores m v visited pending found after) :
    ∀ x ∈ found.map (·.element), ∀ t, m.Follows v false x t → t ∈ after := by
  induction h with
  | nil => simp
  | skip _ _ ih => exact ih
  | enter _ habove hrest ihabove ihrest =>
    intro x hx t hxt
    rcases mem_elements_iff.1 hx with rfl | hx | hx
    · obtain ⟨s, hs, rfl⟩ := Model.follows_iff.1 hxt
      exact hrest.mem_after_iff.2 (Or.inl (habove.general_mem_after s hs))
    · exact hrest.mem_after_iff.2 (Or.inl (ihabove x hx t hxt))
    · exact ihrest x hx t hxt

/-- From a declaration, everything is found that it inherits from. -/
theorem mem_iff_inherits {d : ElementId}
    (h : Explores m v [d] (m.followed v true d) found after) :
    t ∈ found.map (·.element) ↔ t ≠ d ∧ m.Inherits v d t := by
  constructor
  · intro ht
    obtain ⟨s, hs, hst⟩ := h.exists_of_mem ht
    have hne : t ≠ d := fun htd => h.fresh_nodup.1 t ht (List.mem_singleton.2 htd)
    exact ⟨hne, s.general, Model.follows_iff.2 ⟨s, hs, rfl⟩, hst⟩
  · rintro ⟨hne, a, hda, hst⟩
    obtain ⟨s, hs, rfl⟩ := Model.follows_iff.1 hda
    have hvisited : ∀ t, ReflTransGen (m.Follows v false) s.general t → t ∈ after := by
      intro t hst
      induction hst with
      | refl => exact h.general_mem_after s hs
      | tail _ hxt ih =>
        rcases h.mem_after_iff.1 ih with hx | hx
        · obtain rfl := List.mem_singleton.1 hx
          obtain ⟨r, hr, rfl⟩ := Model.follows_iff.1 hxt.own
          exact h.general_mem_after r hr
        · exact h.closed _ hx _ hxt
    rcases h.mem_after_iff.1 (hvisited t hst) with hd | ht
    · exact absurd (List.mem_singleton.1 hd) hne
    · exact ht

end Explores

namespace Model

variable {m : Model} {v : Viewpoint}

theorem contains_of_mem_followed (h : Coherent m) {isOwn : Bool} {d : ElementId}
    {s : Specialization} (hs : s ∈ m.followed v isOwn d) : m.contains s.general := by
  have hmatching := (List.mem_filter.1 hs).1
  exact h.contains_general (List.mem_filter.1 hmatching).1

private theorem unlisted_le_of_subset (f : Forest) {listed more : List ElementId} (h : listed ⊆ more) :
    f.unlisted more ≤ f.unlisted listed := by
  refine List.countP_mono_left fun d _ hd => ?_
  simp only [List.contains_eq_mem, Bool.not_eq_true', decide_eq_false_iff_not] at hd ⊢
  exact fun hmem => hd (h hmem)

/-- Inheriting along pending specializations explores them, and then goes on with the rest. -/
theorem exists_explores (h : Coherent m) (visited : List ElementId)
    (pending : List Specialization) (hp : ∀ s ∈ pending, m.contains s.general) :
    ∃ found after, Explores m v visited pending found after ∧
      ∀ rest, m.inherit v visited (pending ++ rest) = found ++ m.inherit v after rest := by
  induction hn : m.unlisted visited using Nat.strongRecOn generalizing visited pending with
  | _ n ihvisited =>
    induction pending with
    | nil => exact ⟨[], visited, .nil, fun rest => rfl⟩
    | cons s pending ihpending =>
      have hpending : ∀ r ∈ pending, m.contains r.general :=
        fun r hr => hp r (List.mem_cons_of_mem s hr)
      by_cases hs : s.general ∈ visited
      · obtain ⟨found, after, hexplores, hinherit⟩ := ihpending hpending
        refine ⟨found, after, .skip hs hexplores, fun rest => ?_⟩
        rw [List.cons_append, inherit, dif_neg (by simp [hs]), hinherit]
      · have hknown := hp s List.mem_cons_self
        have hfresh : m.contains s.general ∧ ¬ visited.contains s.general :=
          ⟨hknown, by simpa using hs⟩
        have hlt := m.unlisted_cons_lt hfresh.1 hfresh.2
        obtain ⟨above, between, habove, hinheritabove⟩ := ihvisited _ (hn ▸ hlt)
          (s.general :: visited) (m.followed v false s.general)
          (fun r hr => contains_of_mem_followed h hr) rfl
        have hsubset : s.general :: visited ⊆ between :=
          fun t ht => habove.mem_after_iff.2 (Or.inl ht)
        have hlt := Nat.lt_of_le_of_lt (unlisted_le_of_subset m.toForest hsubset) hlt
        obtain ⟨found, after, hexplores, hinherit⟩ := ihvisited _ (hn ▸ hlt)
          between pending hpending rfl
        refine ⟨_, after, .enter hs habove hexplores, fun rest => ?_⟩
        rw [List.cons_append, inherit, dif_pos hfresh, hinheritabove, hinherit]
        simp

/-- The supertypes of a declaration are found by exploring its own specializations. -/
theorem explores_ancestors (h : Coherent m) (d : ElementId) :
    ∃ after, Explores m v [d] (m.followed v true d) (m.ancestors v d) after := by
  obtain ⟨found, after, hexplores, hinherit⟩ :=
    exists_explores h [d] (m.followed v true d) fun s hs => contains_of_mem_followed h hs
  have hall := hinherit []
  simp only [List.append_nil, inherit] at hall
  exact ⟨after, by rwa [ancestors, hall]⟩

end Model
end Kerml
