import Kerml.Proofs.Classification.Underway
import Kerml.Proofs.Link.Phases

/-!
# Categories after linking

The categories of a linked declaration are those of everything that it specializes, directly or
not. What is remembered of earlier queries is right, so that it makes no difference.
-/
namespace Kerml.Model

/-- What is remembered of categories is what the types belong to. -/
structure Remembers (m : Model) : Prop where
  settled : m.Settled
  done : ∀ {d b}, m.isType d → m.memos.get d = .done b → ∀ c, b.has c ↔ m.Belongs d c

variable {m n : Model} {d : ElementId} {c : Category}

theorem Remembers.underway (hm : m.Remembers) : Underway m (fun _ => True) [] m where
  forest := rfl
  get_of_notMem _ _ := rfl
  get_subset _ := List.Subset.refl _
  settled := hm.settled
  sound _ _ hx hmemo c := (hm.done hx hmemo c).1
  complete _ _ _ _ hx hmemo c := (hm.done hx hmemo c).2

theorem Underway.remembers (h : Underway m (fun _ => True) [] n) (hn : SameEdges m n) :
    n.Remembers where
  settled := h.settled
  done := by
    intro d b hd hmemo c
    rw [hn.forest] at hd
    rw [hn.belongs]
    exact ⟨h.sound d b hd hmemo c, h.complete d b trivial List.not_mem_nil hd hmemo c⟩

theorem Remembers.askAll (h : Coherent m) (hm : m.Remembers) (qs : List Query) :
    (m.askAll qs).Remembers :=
  (hm.underway.askAll h (closed_true m) qs).remembers (askAll_sameEdges m qs)

theorem askCategories_has_iff_belongs (h : Coherent m) (hm : m.Remembers) (d : ElementId)
    (c : Category) : (m.askCategories d).1.has c ↔ m.Belongs d c :=
  hm.underway.askCategories_has_iff h (closed_true m) trivial

theorem memos_link (m : Model) (d : ElementId) : m.link.memos.get d = .unknown := rfl

theorem remembers_link (m : Model) : m.link.Remembers where
  settled d := by simp [memos_link]
  done _ hmemo := by simp [memos_link] at hmemo

/-- After linking and any queries, a declaration has the categories of all that it specializes. So
the declarations on a cycle have the same, and earlier queries make no difference. -/
theorem categories_askAll_link (h : m.Reachable) (qs : List Query) (d : ElementId) :
    (∀ c, ((m.link.askAll qs).askCategories d).1.has c ↔
      ∃ e, m.link.Specializes d e ∧ (m.metaclass e).categories.has c) ∧
    (∀ e, m.link.Specializes d e → m.link.Specializes e d →
      ((m.link.askAll qs).askCategories d).1 = ((m.link.askAll qs).askCategories e).1) ∧
    ((m.link.askAll qs).askCategories d).1 = (m.link.askCategories d).1 := by
  have hcoherent : Coherent m.link := h.coherent.link
  have hasked : ∀ (qs : List Query) (d : ElementId) (c : Category),
      ((m.link.askAll qs).askCategories d).1.has c ↔ m.link.Belongs d c := by
    intro qs d c
    have hsame := askAll_sameEdges m.link qs
    rw [← hsame.belongs]
    exact askCategories_has_iff_belongs (hcoherent.of_sameEdges hsame)
      ((remembers_link m).askAll hcoherent qs) d c
  refine ⟨fun c => ?_, fun e hde hed => ?_, ?_⟩
  · rw [hasked, Belongs, link_forest]
  · apply Categories.eq_of_has
    intro c
    rw [Bool.eq_iff_iff, hasked, hasked]
    constructor
    · rintro ⟨f, hdf, hf⟩
      exact ⟨f, hed.trans hdf, hf⟩
    · rintro ⟨f, hef, hf⟩
      exact ⟨f, hde.trans hef, hf⟩
  · apply Categories.eq_of_has
    intro c
    rw [Bool.eq_iff_iff, hasked qs, ← hasked [] d c]
    rfl

/-- A class and a structure that specialize each other. -/
def classCycle : Model :=
  performAll { library := .empty }
    [.addRoot { metaclass := .klass }, .addRoot { metaclass := .struct },
      .request ⟨0⟩ { target := .element ⟨1⟩, kind := .subclassification },
      .request ⟨1⟩ { target := .element ⟨0⟩, kind := .subclassification }]

theorem categories_askAll_link_classCycle :
    classCycle.Reachable ∧
    (((classCycle.link.askAll [.categories ⟨1⟩]).askCategories ⟨0⟩).1.has .struct ↔
      ∃ e, classCycle.link.Specializes ⟨0⟩ e ∧ (classCycle.metaclass e).categories.has .struct) ∧
    ((classCycle.link.askAll [.categories ⟨1⟩]).askCategories ⟨0⟩).1 =
      ((classCycle.link.askAll [.categories ⟨1⟩]).askCategories ⟨1⟩).1 ∧
    ((classCycle.link.askAll [.categories ⟨1⟩]).askCategories ⟨0⟩).1 =
      (classCycle.link.askCategories ⟨0⟩).1 := by
  have hreachable : classCycle.Reachable := (Reachable.empty .empty).performAll _
  obtain ⟨hbelongs, hcycle, hfirst⟩ := categories_askAll_link hreachable [.categories ⟨1⟩] ⟨0⟩
  refine ⟨hreachable, hbelongs .struct, hcycle ⟨1⟩ ?_ ?_, hfirst⟩
  · exact .single (by decide +kernel)
  · exact .single (by decide +kernel)

end Kerml.Model
