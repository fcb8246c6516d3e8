import Kerml.Proofs.Classification.Visit
import Kerml.Proofs.Reachable

/-!
# Queries for categories

A query answers with what the declaration derives from what has been remembered so far, and
remembers as much for the declarations that it has come across. All of these are specialized by
the declaration.
-/
namespace Kerml.Model

open Relation

/-- There is a path of specializations from one declaration to the other. -/
def Specializes (m : Model) : ElementId → ElementId → Prop :=
  ReflTransGen fun d t =>
    ∃ s ∈ m.specializations.get d, s.kind.includes .specialization ∧ s.general = t

/-- A declaration belongs to the categories of all that it specializes. -/
def Belongs (m : Model) (d : ElementId) (c : Category) : Prop :=
  ∃ e, m.Specializes d e ∧ (m.metaclass e).categories.has c

/-- No categories are being derived. -/
def Settled (m : Model) : Prop :=
  ∀ d, m.memos.get d ≠ .inProgress

/-- The specializations of what has a property lead to what has it. -/
def Closed (m : Model) (p : ElementId → Prop) : Prop :=
  ∀ d, p d → ∀ s ∈ m.specializations.get d, p s.general

variable {m n k : Model} {d e x : ElementId} {c : Category} {p : ElementId → Prop}

theorem closed_true (m : Model) : m.Closed fun _ => True := fun _ _ _ _ => trivial

theorem mem_generalTypes_iff : e ∈ m.generalTypes d ↔
    ∃ s ∈ m.specializations.get d, s.kind.includes .specialization ∧ s.general = e := by
  simp [generalTypes, specializationsOf, Specialization.matching, and_assoc]

theorem SameEdges.specializes (h : SameEdges m n) : n.Specializes = m.Specializes := by
  simp [Specializes, h.specializations]

theorem SameEdges.belongs (h : SameEdges m n) : n.Belongs = m.Belongs := by
  funext d c
  simp [Belongs, h.specializes, h.forest]

/-- Paths stay within what every specialization stays within. -/
theorem Specializes.within (h : m.Specializes d e) (hp : m.Closed p) (hd : p d) : p e := by
  induction h with
  | refl => exact hd
  | tail _ hstep ih =>
    obtain ⟨s, hs, -, rfl⟩ := hstep
    exact hp _ ih s hs

theorem Specializes.mono (h : n.Specializes d e)
    (hsub : ∀ x, n.specializations.get x ⊆ k.specializations.get x) : k.Specializes d e := by
  refine h.lift id fun x t hxt => ?_
  obtain ⟨s, hs, hkind, hst⟩ := hxt
  exact ⟨s, hsub x hs, hkind, hst⟩

/-- Where two models have the same specializations they have the same paths. -/
theorem Specializes.of_get (h : m.Specializes d e) (hp : m.Closed p)
    (hsame : ∀ x, p x → n.specializations.get x = m.specializations.get x) (hd : p d) :
    n.Specializes d e := by
  induction h using ReflTransGen.head_induction_on with
  | refl => exact .refl
  | head hstep _ ih =>
    obtain ⟨s, hs, hkind, rfl⟩ := hstep
    exact .head ⟨s, (hsame _ hd).symm ▸ hs, hkind, rfl⟩ (ih (hp _ hd s hs))

theorem Belongs.of_get (h : m.Belongs d c) (hforest : n.toForest = m.toForest) (hp : m.Closed p)
    (hsame : ∀ x, p x → n.specializations.get x = m.specializations.get x) (hd : p d) :
    n.Belongs d c := by
  obtain ⟨e, hde, he⟩ := h
  exact ⟨e, hde.of_get hp hsame hd, by rwa [hforest]⟩

theorem Settled.sound (h : m.Settled) : Walk.Sound m { memos := m.memos } where
  path_nodup := List.nodup_nil
  mem_path_iff := by simp [h _]
  unknown_of_mem_path hx := absurd hx List.not_mem_nil
  unknown_before := id
  done := by
    intro x b hx hmemo c
    have hasks : ∀ t, ¬ m.Asks x t := fun t ht => by simpa [hmemo] using ht.2.1
    rw [derives_iff_shown hasks]
    simp [shown, hx, hmemo]
  knows hunknown hmemo := by simp [hunknown] at hmemo

/-- A visit that starts with nothing open gathers what the declaration derives, and leaves nothing
open. The declaration has been entered. -/
theorem Settled.visit (h : m.Settled) (d : ElementId) :
    let (w, v) := m.visit (m.size + 1) { memos := m.memos } d
    (∀ c, v.gathered.has c ↔ m.Derives d c) ∧ w.path = [] ∧ w.Sound m ∧ w.Knows m d := by
  have hvisited : Visited m { memos := m.memos } d _ _ :=
    visited_visit (m.size + 1) h.sound (fun x hx => absurd hx List.not_mem_nil) (by simp)
  have hempty : (m.visit (m.size + 1) { memos := m.memos } d).1.path = [] := by
    obtain ⟨new, hpath, hnew⟩ := hvisited.path
    rw [hpath, List.append_nil]
    refine List.eq_nil_iff_forall_not_mem.2 fun x hx => ?_
    obtain ⟨y, hy, -⟩ := (hnew x hx).2
    exact absurd hy List.not_mem_nil
  refine ⟨fun c => ⟨hvisited.gathered, fun hc => ?_⟩, hempty, hvisited.sound, hvisited.knows⟩
  rcases hvisited.covered with ⟨hd, -⟩ | hall
  · rw [hempty] at hd
    exact absurd hd List.not_mem_nil
  · exact hall c hc

private theorem not_derives_of_not_contains (h : ¬ m.contains d) : ¬ m.Derives d c := by
  have htype : ¬ m.isType d := fun hd => h (Forest.contains_of_isType hd)
  have hkind : m.metaclass d = .element := by
    simp [Forest.metaclass, Forest.declaration?, Forest.element?_eq_none h]
  rw [derives_iff_shown fun t ht => htype ht.1, shown, if_neg htype, hkind]
  cases c <;> decide

theorem askCategories_has_iff_derives (h : m.Settled) (d : ElementId) (c : Category) :
    (m.askCategories d).1.has c ↔ m.Derives d c := by
  by_cases hd : m.contains d
  · rw [askCategories, if_pos hd]
    exact (h.visit d).1 c
  · simp [askCategories, hd, not_derives_of_not_contains hd]

theorem Settled.askCategories (h : m.Settled) (d : ElementId) : (m.askCategories d).2.Settled := by
  by_cases hd : m.contains d
  · obtain ⟨-, hpath, hsound, -⟩ := h.visit d
    intro x hx
    simp only [Model.askCategories, hd, if_true] at hx
    have hmem := hsound.mem_path_iff.2 hx
    rw [hpath] at hmem
    exact absurd hmem List.not_mem_nil
  · simpa [Model.askCategories, hd] using h

/-- What is remembered after a query is what was derived from what had been remembered before. -/
theorem done_askCategories (h : m.Settled) {b : Categories} (hx : m.isType x)
    (hmemo : (m.askCategories d).2.memos.get x = .done b) : b.has c ↔ m.Derives x c := by
  by_cases hd : m.contains d
  · simp only [Model.askCategories, hd, if_true] at hmemo
    exact (h.visit d).2.2.1.done hx hmemo c
  · simp only [Model.askCategories, hd] at hmemo
    exact h.sound.done hx hmemo c

/-- Between two walks only types are entered or left that visiting the given declaration enters. -/
structure Strays (m : Model) (d : ElementId) (w w' : Walk) : Prop where
  path : ∃ new, w'.path = new ++ w.path ∧ ∀ x ∈ new, m.Enters d x
  memos : ∀ x, ¬ m.Enters d x → w'.memos.get x = w.memos.get x

theorem Enters.head {t : ElementId} (ht : m.Asks d t) (hx : m.Enters t x) : m.Enters d x :=
  ⟨hx.1, hx.2.1, .head ht hx.2.2⟩

theorem Enters.specializes (h : m.Enters d x) : m.Specializes d x :=
  h.2.2.lift id fun _ _ hat => mem_generalTypes_iff.1 hat.2.2

namespace Strays

variable {w w' w'' : Walk} {t : ElementId}

theorem refl (w : Walk) : m.Strays d w w :=
  ⟨⟨[], rfl, fun _ hx => absurd hx List.not_mem_nil⟩, fun _ _ => rfl⟩

theorem enter (w : Walk) (hd : m.Enters d d) : m.Strays d w (w.enter d) where
  path := by
    refine ⟨[d], rfl, fun x hx => ?_⟩
    rwa [List.mem_singleton.1 hx]
  memos x hx := by
    have hdx : d ≠ x := by
      rintro rfl
      exact hx hd
    exact Column.get_put_of_ne _ hdx _

theorem trans (h : m.Strays d w w') (ht : m.Asks d t) (h' : m.Strays t w' w'') :
    m.Strays d w w'' where
  path := by
    obtain ⟨new, hpath, hnew⟩ := h.path
    obtain ⟨more, hmore, hfurther⟩ := h'.path
    refine ⟨more ++ new, by rw [hmore, hpath, List.append_assoc], fun x hx => ?_⟩
    rcases List.mem_append.1 hx with hx | hx
    · exact .head ht (hfurther x hx)
    · exact hnew x hx
  memos x hx := (h'.memos x fun htx => hx (.head ht htx)).trans (h.memos x hx)

theorem close (h : m.Strays d w w') (b : Categories) :
    m.Strays d w (w'.close w.path.length b) := by
  obtain ⟨new, hpath, hnew⟩ := h.path
  rw [Walk.close_eq hpath]
  refine ⟨⟨[], rfl, fun _ hx => absurd hx List.not_mem_nil⟩, fun x hx => ?_⟩
  rw [Column.get_foldl_put _ fun _ => CategoryMemo.done b, if_neg fun hmem => hx (hnew x hmem)]
  exact h.memos x hx

/-- What is not remembered after a walk was not remembered by the model. -/
theorem unknown_before (h : m.Strays d w w')
    (hw : ∀ x, w.memos.get x = .unknown → m.memos.get x = .unknown) (x : ElementId)
    (hx : w'.memos.get x = .unknown) : m.memos.get x = .unknown := by
  by_cases hdx : m.Enters d x
  · exact hdx.2.1
  · exact hw x (h.memos x hdx ▸ hx)

end Strays

private theorem strays_visit (depth : Nat) (w : Walk) (d : ElementId)
    (hw : ∀ x, w.memos.get x = .unknown → m.memos.get x = .unknown) :
    m.Strays d w (m.visit depth w d).1 := by
  induction depth generalizing w d with
  | zero => exact .refl w
  | succ depth ih =>
    rw [visit]
    by_cases hd : m.isType d
    · simp only [hd, Bool.not_true, Bool.false_eq_true, if_false]
      cases hmemo : w.memos.get d with
      | done b => exact .refl w
      | inProgress => exact .refl w
      | unknown =>
        have hunknown := hw d hmemo
        have hall := List.foldlRecOn (motive := fun acc : Walk × Visit => m.Strays d w acc.1)
          (m.generalTypes d)
          (fun acc t => ((m.visit depth acc.1 t).1, acc.2.join (m.visit depth acc.1 t).2))
          (show m.Strays d w ((w.enter d), Visit.mk (m.metaclass d).categories
            (some w.path.length)).1 from .enter w ⟨hd, hunknown, .refl⟩)
          (fun acc hacc t ht => hacc.trans ⟨hd, hunknown, ht⟩
            (ih acc.1 t (hacc.unknown_before hw)))
        dsimp only
        split
        · exact hall
        · exact hall.close _
    · simp only [hd]
      exact .refl w

/-- A query changes what is remembered only of the types that it enters. -/
theorem memos_askCategories_of_not_enters (hx : ¬ m.Enters d x) :
    (m.askCategories d).2.memos.get x = m.memos.get x := by
  by_cases hd : m.contains d
  · rw [Model.askCategories, if_pos hd]
    exact (strays_visit (m.size + 1) { memos := m.memos } d fun _ => id).memos x hx
  · rw [Model.askCategories, if_neg hd]

theorem memos_askCategories_of_not_specializes (hx : ¬ m.Specializes d x) :
    (m.askCategories d).2.memos.get x = m.memos.get x :=
  memos_askCategories_of_not_enters fun h => hx h.specializes

/-- The types that a query enters are those that the walk has entered in the end. -/
theorem exists_done_askCategories (h : m.Settled) (hx : m.Enters d x) :
    ∃ b, (m.askCategories d).2.memos.get x = .done b := by
  by_cases hd : m.contains d
  · obtain ⟨-, hpath, hsound, hknows⟩ := h.visit d
    have hdone : ∀ t, (m.visit (m.size + 1) { memos := m.memos } d).1.memos.get t ≠ .unknown →
        ∃ b, (m.visit (m.size + 1) { memos := m.memos } d).1.memos.get t = .done b := by
      intro t ht
      cases hmemo : (m.visit (m.size + 1) { memos := m.memos } d).1.memos.get t with
      | unknown => exact absurd hmemo ht
      | inProgress =>
        have hmem := hsound.mem_path_iff.2 hmemo
        rw [hpath] at hmem
        exact absurd hmem List.not_mem_nil
      | done b => exact ⟨b, rfl⟩
    rw [Model.askCategories, if_pos hd]
    refine hdone x ?_
    obtain ⟨htype, -, hpath⟩ := hx
    -- every type on the way is closed, and a closed type leaves nothing to be entered
    induction hpath with
    | refl => exact hknows htype
    | tail _ hstep ih =>
      obtain ⟨b, hb⟩ := hdone _ (ih hstep.1)
      exact hsound.knows hstep.2.1 hb _ hstep.2.2 htype
  · have htype : ¬ m.isType d := fun hd' => hd (Forest.contains_of_isType hd')
    rcases ReflTransGen.cases_head hx.2.2 with rfl | ⟨t, ht, -⟩
    · exact absurd hx.1 htype
    · exact absurd ht.1 htype

private theorem memos_rememberName (m : Model) (d : ElementId) : (m.rememberName d).memos = m.memos := rfl

/-- What holds after each query for the categories of one declaration, and does not depend on the
names that are known, holds after all queries. -/
theorem askAll_induction {p : Model → Prop} (hasked : ∀ n d, p n → p (n.askCategories d).2)
    (hnamed : ∀ n k, SameEdges n k → k.memos = n.memos → p n → p k) (qs : List Query)
    (hm : p m) : p (m.askAll qs) := by
  refine List.foldlRecOn qs ask hm fun n hn q _ => ?_
  cases q with
  | categories d => exact hasked n d hn
  | allCategories =>
    rw [ask, askAllCategories_snd]
    exact List.foldlRecOn n.ids _ hn fun k hk d _ => hasked k d hk
  | name d =>
    refine hnamed n _ (ask_sameEdges n _) ?_ hn
    rw [ask, askName?]
    split <;> rfl
  | names =>
    exact List.foldlRecOn n.ids rememberName hn fun k hk d _ =>
      hnamed k _ (rememberName_sameEdges k d) (memos_rememberName k d) hk

end Kerml.Model
