import Kerml.Proofs.Classification.Query

/-!
# Categories in a model that lags behind another one

Some declarations still wait for their specializations. What is derived meanwhile may lack
something, but has nothing too much. When nothing waits, the categories that are remembered are
those of the other model.
-/
namespace Kerml.Model

open Relation

variable {m n k : Model} {d x : ElementId} {c : Category} {pending : List ElementId}
  {p waits : ElementId → Prop}

/-- A model with no specializations that another one does not have. Of categories it remembers nothing
too much. -/
structure Lags (k n : Model) : Prop where
  forest : n.toForest = k.toForest
  get_subset : ∀ e, n.specializations.get e ⊆ k.specializations.get e
  settled : n.Settled
  sound : ∀ x b, k.isType x → n.memos.get x = .done b → ∀ c, b.has c → k.Belongs x c

/-- A model that lacks the specializations of another one at most for what waits. For those among the
chosen declarations that do not wait it remembers nothing too little. -/
structure KeepsUp (k : Model) (p waits : ElementId → Prop) (n : Model) : Prop where
  forest : n.toForest = k.toForest
  subset_get : ∀ e, ¬ waits e → k.specializations.get e ⊆ n.specializations.get e
  settled : n.Settled
  complete : ∀ x b, p x → ¬ waits x → k.isType x → n.memos.get x = .done b →
    ∀ c, k.Belongs x c → b.has c

/-- A model on the way to one that differs from it in the specializations of what waits, which may be
lacking. Nothing too much is remembered of categories, and for those among the chosen declarations
that do not wait, nothing too little. -/
structure Underway (k : Model) (p : ElementId → Prop) (pending : List ElementId) (n : Model) :
    Prop where
  forest : n.toForest = k.toForest
  get_of_notMem : ∀ e, e ∉ pending → n.specializations.get e = k.specializations.get e
  get_subset : ∀ e, n.specializations.get e ⊆ k.specializations.get e
  settled : n.Settled
  sound : ∀ x b, k.isType x → n.memos.get x = .done b → ∀ c, b.has c → k.Belongs x c
  complete : ∀ x b, p x → x ∉ pending → k.isType x → n.memos.get x = .done b →
    ∀ c, k.Belongs x c → b.has c

/-- No chosen declaration that is done and reached from the given one goes back to what waits. -/
def Settles (k : Model) (p : ElementId → Prop) (pending : List ElementId) (d : ElementId) : Prop :=
  ∀ t, p t → t ∉ pending → k.Specializes d t → ∀ v ∈ pending, ¬ k.Specializes t v

namespace Lags

theorem of_unknown (hforest : n.toForest = k.toForest)
    (hget : ∀ e, n.specializations.get e ⊆ k.specializations.get e)
    (hmemos : ∀ e, n.memos.get e = .unknown) : Lags k n where
  forest := hforest
  get_subset := hget
  settled x := by simp [hmemos]
  sound x b _ hmemo := by simp [hmemos] at hmemo

theorem belongs_of_derives (h : Lags k n) (hx : n.Derives x c) : k.Belongs x c := by
  obtain ⟨e, hxe, he⟩ := hx
  have hpath : n.Specializes x e := hxe.lift id fun _ _ hat => mem_generalTypes_iff.1 hat.2.2
  have hbelongs : k.Belongs e c := by
    rw [shown, h.forest] at he
    split at he
    · split at he
      · exact h.sound e _ ‹_› ‹_› c he
      · exact ⟨e, .refl, he⟩
    · exact ⟨e, .refl, he⟩
  obtain ⟨f, hef, hf⟩ := hbelongs
  exact ⟨f, (hpath.mono h.get_subset).trans hef, hf⟩

theorem has_askCategories (h : Lags k n) (hc : (n.askCategories d).1.has c) : k.Belongs d c :=
  h.belongs_of_derives ((askCategories_has_iff_derives h.settled d c).1 hc)

theorem askCategories (h : Lags k n) (d : ElementId) : Lags k (n.askCategories d).2 where
  forest := (askCategories_sameButMemos n d).sameEdges.forest.trans h.forest
  get_subset := by
    rw [(askCategories_sameButMemos n d).sameEdges.specializations]
    exact h.get_subset
  settled := h.settled.askCategories d
  sound x b hx hmemo c hc := by
    have htype : n.isType x := by rwa [h.forest]
    exact h.belongs_of_derives ((done_askCategories h.settled htype hmemo).1 hc)

end Lags

namespace KeepsUp

theorem of_unknown (hforest : n.toForest = k.toForest)
    (hget : ∀ e, ¬ waits e → k.specializations.get e ⊆ n.specializations.get e)
    (hmemos : ∀ e, n.memos.get e = .unknown) : KeepsUp k p waits n where
  forest := hforest
  subset_get := hget
  settled x := by simp [hmemos]
  complete x b _ _ _ hmemo := by simp [hmemos] at hmemo

/-- What does not go back to anything that waits derives all that it belongs to. -/
theorem derives_of_belongs (h : KeepsUp k p waits n) (hk : Coherent k)
    (hp : ∀ {x t}, p x → k.Specializes x t → p t) (hx : p x)
    (hclean : ∀ v, k.Specializes x v → ¬ waits v) (hc : k.Belongs x c) : n.Derives x c := by
  obtain ⟨e, hxe, he⟩ := hc
  induction hxe using ReflTransGen.head_induction_on with
  | refl =>
    apply Derives.shown
    rw [shown, h.forest]
    split
    · split
      · exact h.complete e _ hx (hclean e .refl) ‹_› ‹_› c ⟨e, .refl, he⟩
      · exact he
    · exact he
  | @head x t hxt hte ih =>
    have hdone : ¬ waits x := hclean x .refl
    have hbelongs : k.Belongs x c := ⟨e, .head hxt hte, he⟩
    have hgeneral : n.Derives t c :=
      ih (hp hx (.single hxt)) fun v htv => hclean v (.head hxt htv)
    obtain ⟨s, hs, hkind, rfl⟩ := hxt
    have htype : k.isType x := hk.isType_of_edge hs
    cases hmemo : n.memos.get x with
    | unknown =>
      refine hgeneral.head (.single ⟨by rwa [h.forest], hmemo, mem_generalTypes_iff.2 ?_⟩)
      exact ⟨s, h.subset_get x hdone hs, hkind, rfl⟩
    | inProgress => exact absurd hmemo (h.settled x)
    | done b =>
      have hb := h.complete x b hx hdone htype hmemo c hbelongs
      have htype' : n.isType x := by rwa [h.forest]
      exact Derives.shown (by simpa [shown, htype', hmemo] using hb)

theorem has_askCategories (h : KeepsUp k p waits n) (hk : Coherent k)
    (hp : ∀ {x t}, p x → k.Specializes x t → p t) (hd : p d)
    (hclean : ∀ v, k.Specializes d v → ¬ waits v) (hc : k.Belongs d c) :
    (n.askCategories d).1.has c :=
  (askCategories_has_iff_derives h.settled d c).2 (h.derives_of_belongs hk hp hd hclean hc)

/-- What a query adds for the chosen declarations is complete if none of those that it comes to goes
back to what waits. -/
theorem askCategories (h : KeepsUp k p waits n) (hk : Coherent k)
    (hp : ∀ {x t}, p x → k.Specializes x t → p t)
    (hd : ∀ t, p t → ¬ waits t → n.Specializes d t → ∀ v, k.Specializes t v → ¬ waits v) :
    KeepsUp k p waits (n.askCategories d).2 where
  forest := (askCategories_sameButMemos n d).sameEdges.forest.trans h.forest
  subset_get := by
    rw [(askCategories_sameButMemos n d).sameEdges.specializations]
    exact h.subset_get
  settled := h.settled.askCategories d
  complete x b hpx hdone hx hmemo c hc := by
    have htype : n.isType x := by rwa [h.forest]
    refine (done_askCategories h.settled htype hmemo).2 ?_
    cases hbefore : n.memos.get x with
    | unknown =>
      have hreached : n.Specializes d x := by
        by_contra hnot
        rw [memos_askCategories_of_not_specializes hnot, hbefore] at hmemo
        cases hmemo
      exact h.derives_of_belongs hk hp hpx (hd x hpx hdone hreached) hc
    | inProgress => exact absurd hbefore (h.settled x)
    | done a =>
      have ha := h.complete x a hpx hdone hx hbefore c hc
      exact Derives.shown (by simpa [shown, htype, hbefore] using ha)

end KeepsUp

/-- Paths of specializations stay within what all specializations stay within. -/
theorem Closed.specializes (hp : k.Closed p) {t : ElementId} (hx : p x) (ht : k.Specializes x t) :
    p t :=
  ht.within hp hx

namespace Underway

theorem lags (h : Underway k p pending n) : Lags k n :=
  ⟨h.forest, h.get_subset, h.settled, h.sound⟩

theorem keepsUp (h : Underway k p pending n) : KeepsUp k p (· ∈ pending) n :=
  ⟨h.forest, fun e he => (h.get_of_notMem e he) ▸ List.Subset.refl _, h.settled, h.complete⟩

/-- A query keeps to what is known, and what it adds for the chosen declarations is complete. -/
theorem askCategories (h : Underway k p pending n) (hk : Coherent k) (hp : k.Closed p)
    (hd : Settles k p pending d) : Underway k p pending (n.askCategories d).2 := by
  have hlags := h.lags.askCategories d
  have hkeeps := h.keepsUp.askCategories hk hp.specializes fun t ht hdone hdt v htv hv =>
    hd t ht hdone (hdt.mono h.get_subset) v hv htv
  refine ⟨hlags.forest, ?_, hlags.get_subset, hlags.settled, hlags.sound, hkeeps.complete⟩
  rw [(askCategories_sameButMemos n d).sameEdges.specializations]
  exact h.get_of_notMem

theorem of_memos {n' : Model} (h : Underway k p pending n) (hn : SameEdges n n')
    (hmemos : n'.memos = n.memos) : Underway k p pending n' where
  forest := hn.forest.trans h.forest
  get_of_notMem := by simpa only [hn.specializations] using h.get_of_notMem
  get_subset := by simpa only [hn.specializations] using h.get_subset
  settled := by simpa only [Settled, hmemos] using h.settled
  sound := by simpa only [hmemos] using h.sound
  complete := by simpa only [hmemos] using h.complete

/-- When nothing waits any more, queries for categories do no harm. -/
theorem askAll (h : Underway k p [] n) (hk : Coherent k) (hp : k.Closed p) (qs : List Query) :
    Underway k p [] (n.askAll qs) := by
  have hdone : ∀ d, Settles k p [] d := fun d t _ _ _ v hv => absurd hv List.not_mem_nil
  refine askAll_induction (p := fun n => Underway k p [] n) ?_ ?_ qs h
  · exact fun n d hn => hn.askCategories hk hp (hdone d)
  · exact fun n n' hsame hmemos hn => hn.of_memos hsame hmemos

theorem has_askCategories (h : Underway k p pending n) (hc : (n.askCategories d).1.has c) :
    k.Belongs d c :=
  h.lags.has_askCategories hc

theorem askCategories_has_iff (h : Underway k p [] n) (hk : Coherent k) (hp : k.Closed p)
    (hd : p d) : (n.askCategories d).1.has c ↔ k.Belongs d c :=
  ⟨h.has_askCategories, h.keepsUp.has_askCategories hk hp.specializes hd fun _ _ => List.not_mem_nil⟩

end Underway

end Kerml.Model
