import Kerml.Proofs.Classification.Answers
import Kerml.Proofs.Relink.Steps

/-!
# Categories while supertypes are added

Supertypes are added to one declaration after the other. Compared with a model that has all of
them the categories that are remembered meanwhile may lack something, and compared with one that
has only what is written down they may have something in addition.
-/
namespace Kerml.Model

open Relation

variable {m n k : Model} {d e u : ElementId} {c : Category} {before after : List ElementId}
  {p waits waits' : ElementId → Prop}

/-- Adding supertypes to a declaration leaves its specializations as they are or forgets its
categories. -/
theorem addSupertypes_get_or_memos (n : Model) (u : ElementId) :
    (n.addSupertypes u).specializations.get u = n.specializations.get u ∨
      (n.addSupertypes u).memos.get u = .unknown := by
  have hstep : ∀ (n : Model) (r : SupertypeRole),
      (n.addImplied u r).specializations.get u = n.specializations.get u ∧
        (n.addImplied u r).memos.get u = n.memos.get u ∨
      (n.addImplied u r).memos.get u = .unknown := by
    intro n r
    rw [addImplied]
    split
    · exact Or.inl ⟨rfl, rfl⟩
    · split
      · exact Or.inl ⟨rfl, rfl⟩
      · split
        · exact Or.inl ⟨rfl, rfl⟩
        · exact Or.inr (Column.get_put_self ..)
  by_cases hu : n.isType u
  · have hrun := foldl_rel
      (R := fun n n' => n'.specializations.get u = n.specializations.get u ∧
        n'.memos.get u = n.memos.get u ∨ n'.memos.get u = .unknown)
      (fun _ => Or.inl ⟨rfl, rfl⟩)
      (fun hfirst hnext => by
        rcases hnext with ⟨hget, hmemos⟩ | hforgotten
        · rw [hget, hmemos]
          exact hfirst
        · exact Or.inr hforgotten)
      hstep (n.askRoles u).1 (n.askRoles u).2
    rw [Model.addSupertypes, if_pos hu, ← (askRoles_sameButMemos n u).sameEdges.specializations]
    exact hrun.imp_left And.left
  · rw [addSupertypes_of_not_isType hu]
    exact Or.inl rfl

theorem Lags.consulted (h : Lags k n) (u : ElementId) : Lags k (n.consulted u) :=
  consulted_induction (p := Lags k) h fun _ hn e _ => hn.askCategories e

theorem Lags.addSupertypes (h : Lags k n)
    (hget : (n.addSupertypes u).specializations.get u ⊆ k.specializations.get u) :
    Lags k (n.addSupertypes u) := by
  have hconsulted := h.consulted u
  have hmemos := addSupertypes_forgetsAtMost n u
  refine ⟨(addSupertypes_sameNames n u).forest.trans h.forest, fun e => ?_, fun x hx => ?_,
    fun x b hx hmemo => ?_⟩
  · by_cases hue : u = e
    · exact hue ▸ hget
    · rw [addSupertypes_get_of_ne n u hue]
      exact h.get_subset e
  · exact hconsulted.settled x ((hmemos.get_eq (by simp [hx])).symm.trans hx)
  · exact hconsulted.sound x b hx ((hmemos.get_eq (by simp [hmemo])).symm.trans hmemo)

theorem KeepsUp.consulted (h : KeepsUp k p waits n) (hk : Coherent k)
    (hp : ∀ {x t}, p x → k.Specializes x t → p t)
    (hu : ∀ e ∈ n.informants u, ∀ t, p t → ¬ waits t → n.Specializes e t →
      ∀ v, k.Specializes t v → ¬ waits v) :
    KeepsUp k p waits (n.consulted u) := by
  have hall : SameButMemos n (n.consulted u) ∧ KeepsUp k p waits (n.consulted u) := by
    refine consulted_induction (p := fun n' => SameButMemos n n' ∧ KeepsUp k p waits n')
      ⟨.refl n, h⟩ fun n' hn' e he => ?_
    obtain ⟨hsame, hkeeps⟩ := hn'
    refine ⟨hsame.trans (askCategories_sameButMemos n' e), hkeeps.askCategories hk hp ?_⟩
    rw [hsame.sameEdges.specializes]
    exact hu e he
  exact hall.2

/-- Once the supertypes of a declaration have been added it does not wait any more. If it did, its
categories have been forgotten. -/
theorem KeepsUp.addSupertypes (h : KeepsUp k p waits n) (hk : Coherent k)
    (hp : ∀ {x t}, p x → k.Specializes x t → p t)
    (hu : ∀ e ∈ n.informants u, ∀ t, p t → ¬ waits t → n.Specializes e t →
      ∀ v, k.Specializes t v → ¬ waits v)
    (hget : k.specializations.get u ⊆ (n.addSupertypes u).specializations.get u)
    (hself : waits u → (n.addSupertypes u).specializations.get u ≠ n.specializations.get u)
    (hother : ∀ e, u ≠ e → waits e → waits' e) :
    KeepsUp k p waits' (n.addSupertypes u) := by
  have hconsulted := h.consulted hk hp hu
  have hmemos := addSupertypes_forgetsAtMost n u
  refine ⟨(addSupertypes_sameNames n u).forest.trans h.forest, fun e he => ?_, fun x hx => ?_,
    fun x b hpx hdone hx hmemo => ?_⟩
  · by_cases hue : u = e
    · exact hue ▸ hget
    · rw [addSupertypes_get_of_ne n u hue]
      exact h.subset_get e fun hwaits => he (hother e hue hwaits)
  · exact hconsulted.settled x ((hmemos.get_eq (by simp [hx])).symm.trans hx)
  · have hready : ¬ waits x := by
      intro hwaits
      by_cases hux : u = x
      · subst hux
        have hforgotten := (addSupertypes_get_or_memos n u).resolve_left (hself hwaits)
        simp [hforgotten] at hmemo
      · exact hdone (hother x hux hwaits)
    have hkept := (hmemos.get_eq (by simp [hmemo])).symm.trans hmemo
    exact hconsulted.complete x b hpx hready hx hkept

theorem named_memos (m : Model) (d : ElementId) : m.named.memos.get d = .unknown := by
  rw [named, memos_takeNames, requested]
  refine List.foldlRecOn (motive := fun n : Model => n.memos.get d = .unknown) m.preorder
    applyRequests rfl fun n hn e _ => ?_
  rcases applyRequests_forgetsAtMost n e d with hkept | ⟨-, hforgotten⟩
  · exact hkept.trans hn
  · exact hforgotten

theorem named_get (h : m.WellFormed) (d : ElementId) :
    m.named.specializations.get d = m.writtenEdges d := by
  rw [(named_sameEdges m).specializations]
  by_cases hd : m.contains d
  · exact requested_get h (h.mem_preorder_iff.2 hd)
  · rw [requested, foldl_get_of_notMem applyRequests_get_of_ne (mt h.mem_preorder_iff.1 hd),
      writtenEdges_eq_nil h fun htype => hd (Forest.contains_of_isType htype)]
    rfl

/-- Of the declarations in the order of the text, those that have had their turn have their
supertypes, and the others have what is written down. -/
theorem foldl_addSupertypes_get (h : m.WellFormed) (horder : m.preorder = before ++ after)
    (e : ElementId) : (before.foldl Model.addSupertypes m.named).specializations.get e =
      if e ∈ before then m.link.specializations.get e else m.writtenEdges e := by
  by_cases he : e ∈ before
  · have hnodup := h.preorder_nodup
    rw [horder] at hnodup
    have hafter : e ∉ after := fun hmem => (List.nodup_append.1 hnodup).2.2 e he e hmem rfl
    rw [if_pos he, link_get, complete, horder, List.foldl_append,
      foldl_get_of_notMem addSupertypes_get_of_ne hafter]
  · rw [if_neg he, foldl_get_of_notMem addSupertypes_get_of_ne he, named_get h]

theorem writtenEdges_subset_link (h : m.WellFormed) (e : ElementId) :
    m.writtenEdges e ⊆ m.link.specializations.get e := by
  by_cases he : m.isType e
  · rw [link_get, complete_get h he]
    exact List.subset_append_left ..
  · rw [writtenEdges_eq_nil h he]
    exact List.nil_subset _

end Kerml.Model
