import Kerml.Proofs.Classification.Answers
import Kerml.Proofs.Relink.Steps

/-!
# What models remember of categories

What is remembered may be outdated. Only of types is anything remembered, and between commands and
queries nothing is being derived. A query answers with the least categories that agree with what
is remembered, and remembers them for the types that it has entered.
-/
namespace Kerml.Model

open Relation

variable {m n k : Model} {d e x : ElementId} {c : Category}

/-- What is remembered in one model stays in the other, where more may be remembered of types. -/
def Retains (m n : Model) : Prop :=
  ∀ x, n.memos.get x = m.memos.get x ∨
    m.isType x ∧ m.memos.get x = .unknown ∧ ∃ b, n.memos.get x = .done b

theorem Retains.refl (m : Model) : Retains m m := fun _ => Or.inl rfl

theorem Retains.trans (h : Retains m n) (hforest : n.toForest = m.toForest) (h' : Retains n k) :
    Retains m k := by
  intro x
  rcases h' x with hkept | ⟨htype, hunknown, hdone⟩
  · rw [hkept]
    exact h x
  · rcases h x with hkept | ⟨-, -, b, hb⟩
    · exact Or.inr ⟨hforest ▸ htype, hkept ▸ hunknown, hdone⟩
    · simp [hb] at hunknown

theorem Retains.settled (h : Retains m n) (hm : m.Settled) : n.Settled := by
  intro x hx
  rcases h x with hkept | ⟨-, -, b, hb⟩
  · exact hm x (hkept ▸ hx)
  · simp [hb] at hx

theorem retains_askCategories (h : m.Settled) (d : ElementId) : Retains m (m.askCategories d).2 := by
  intro x
  by_cases hx : m.Enters d x
  · exact Or.inr ⟨hx.1, hx.2.1, exists_done_askCategories h hx⟩
  · exact Or.inl (memos_askCategories_of_not_enters hx)

theorem retains_consulted (h : m.Settled) (d : ElementId) : Retains m (m.consulted d) := by
  have hall : SameButMemos m (m.consulted d) ∧ Retains m (m.consulted d) := by
    refine consulted_induction (p := fun n => SameButMemos m n ∧ Retains m n)
      ⟨.refl m, .refl m⟩ fun n hn e _ => ?_
    obtain ⟨hsame, hretains⟩ := hn
    exact ⟨hsame.trans (askCategories_sameButMemos n e),
      hretains.trans hsame.sameEdges.forest (retains_askCategories (hretains.settled h) e)⟩
  exact hall.2

/-- Categories are remembered only of types, and none are being derived. -/
structure RemembersTypes (m : Model) : Prop where
  settled : m.Settled
  isType : ∀ {x}, m.memos.get x ≠ .unknown → m.isType x

namespace RemembersTypes

theorem of_memos (h : m.RemembersTypes) (htype : ∀ x, m.isType x → n.isType x)
    (hmemos : ∀ x, n.memos.get x = m.memos.get x ∨ n.memos.get x = .unknown) :
    n.RemembersTypes where
  settled x hx := by
    rcases hmemos x with hkept | hforgotten
    · exact h.settled x (hkept ▸ hx)
    · simp [hforgotten] at hx
  isType {x} hx := by
    rcases hmemos x with hkept | hforgotten
    · exact htype x (h.isType (hkept ▸ hx))
    · exact absurd hforgotten hx

private theorem of_retains (h : m.RemembersTypes) (hforest : n.toForest = m.toForest)
    (hn : Retains m n) : n.RemembersTypes where
  settled := hn.settled h.settled
  isType {x} hx := by
    rw [hforest]
    rcases hn x with hkept | ⟨htype, -, -⟩
    · exact h.isType (hkept ▸ hx)
    · exact htype

theorem grow (h : m.RemembersTypes) {f : Forest} (hf : m.Grows f) :
    (m.withForest f).RemembersTypes :=
  h.of_memos (fun _ => hf.isType) fun _ => Or.inl rfl

theorem askCategories (h : m.RemembersTypes) (d : ElementId) :
    (m.askCategories d).2.RemembersTypes :=
  h.of_retains (askCategories_sameButMemos m d).sameEdges.forest
    (retains_askCategories h.settled d)

theorem cleared (h : m.RemembersTypes) (d : ElementId) : (m.cleared d).RemembersTypes := by
  refine h.of_memos (fun _ => id) fun x => ?_
  rw [cleared_memos]
  split
  · exact Or.inr rfl
  · exact Or.inl rfl

theorem renamed (h : m.RemembersTypes) (d : ElementId) : (m.renamed d).RemembersTypes :=
  h.of_memos (fun x hx => by rwa [renamed_forest]) fun x =>
    (renamed_forgetsAtMost m d x).imp_right And.right

theorem rederived (h : m.RemembersTypes) (d : ElementId) : (m.rederived d).RemembersTypes := by
  have hconsulted : ((m.renamed d).consulted d).RemembersTypes :=
    consulted_induction (h.renamed d) fun n hn e _ => hn.askCategories e
  have hforest : ((m.renamed d).consulted d).toForest = m.toForest :=
    (consulted_sameButMemos _ d).sameEdges.forest.trans (renamed_forest m d)
  refine hconsulted.of_memos (fun x hx => ?_) fun x => ?_
  · rwa [rederived_forest, ← hforest]
  · rw [rederived_memos]
    split
    · exact Or.inr rfl
    · exact Or.inl rfl

theorem perform (h : m.RemembersTypes) {a : Command} (hn : m.perform a = .ok n) :
    n.RemembersTypes := by
  cases a with
  | addRoot declaration =>
    cases hn
    exact h.grow (Forest.grows_addRoot declaration)
  | add owner declaration =>
    obtain ⟨p, hp, rfl⟩ := exists_of_map_eq_ok hn
    obtain ⟨f, hf, rfl⟩ := exists_of_map_eq_ok hp
    exact h.grow (Forest.grows_add hf)
  | request d r =>
    obtain ⟨f, hf, rfl⟩ := exists_of_map_eq_ok hn
    exact h.grow (Forest.grows_request hf)
  | clearRequests d =>
    obtain ⟨f, hf, rfl⟩ := exists_of_map_eq_ok hn
    exact h.grow (Forest.grows_clearRequests hf)
  | addImport d i =>
    obtain ⟨f, hf, rfl⟩ := exists_of_map_eq_ok hn
    exact h.grow (Forest.grows_addImport hf)
  | setName d name =>
    obtain ⟨f, hf, rfl⟩ := exists_of_map_eq_ok hn
    exact h.of_memos (fun _ => (Forest.grows_setName hf).isType) fun _ => Or.inl rfl
  | link =>
    cases hn
    exact ⟨(remembers_link m).settled, fun hx => absurd rfl hx⟩
  | reset d =>
    obtain ⟨-, rfl⟩ := reset_eq_ok_iff.1 hn
    exact h.cleared d
  | relink d =>
    obtain ⟨-, rfl⟩ := relink_eq_ok_iff.1 hn
    exact h.rederived d

theorem ask (h : m.RemembersTypes) (q : Query) : (m.ask q).RemembersTypes := by
  refine askAll_induction (p := RemembersTypes) (fun n d hn => hn.askCategories d) ?_ [q] h
  intro n k hsame hmemos hn
  refine hn.of_memos (fun x hx => by rwa [hsame.forest]) fun x => Or.inl (by rw [hmemos])

end RemembersTypes

theorem Reachable.remembersTypes (h : m.Reachable) : m.RemembersTypes := by
  induction h with
  | empty library => exact ⟨fun _ => CategoryMemo.noConfusion, fun hx => absurd rfl hx⟩
  | perform _ a hn ih => exact ih.perform hn
  | ask _ q ih => exact ih.ask q

/-- Categories for all declarations that go by what is remembered. Where nothing is remembered, they
are those of the kind together with those of all that is specialized. -/
structure SolvesCategories (m : Model) (u : ElementId → Categories) : Prop where
  done : ∀ {x b}, m.memos.get x = .done b → u x = b
  unknown : ∀ {x}, m.memos.get x = .unknown → ∀ c,
    (u x).has c ↔ (m.metaclass x).categories.has c ∨ ∃ t ∈ m.generalTypes x, (u t).has c

theorem shown_eq (h : m.RemembersTypes) (x : ElementId) :
    m.shown x = match m.memos.get x with
      | .done b => b
      | _ => (m.metaclass x).categories := by
  rw [shown]
  split
  · rfl
  · have hunknown : m.memos.get x = .unknown := by
      by_contra hx
      exact absurd (h.isType hx) ‹_›
    rw [hunknown]

private theorem solvesCategories_askCategories (hm : Coherent m) (h : m.RemembersTypes) :
    m.SolvesCategories fun x => (m.askCategories x).1 where
  done {x b} hx := by
    apply Categories.eq_of_has
    intro c
    have hasks : ∀ t, ¬ m.Asks x t := fun t ht => by simpa [hx] using ht.2.1
    rw [Bool.eq_iff_iff, askCategories_has_iff_derives h.settled, derives_iff_shown hasks,
      shown_eq h, hx]
  unknown {x} hx c := by
    simp only [askCategories_has_iff_derives h.settled]
    constructor
    · rintro ⟨e, hxe, he⟩
      rcases ReflTransGen.cases_head hxe with rfl | ⟨t, ht, hte⟩
      · rw [shown_eq h, hx] at he
        exact Or.inl he
      · exact Or.inr ⟨t, ht.2.2, e, hte, he⟩
    · rintro (hown | ⟨t, ht, hderives⟩)
      · refine .shown ?_
        rwa [shown_eq h, hx]
      · obtain ⟨s, hs, -, -⟩ := mem_generalTypes_iff.1 ht
        exact hderives.head (.single ⟨hm.isType_of_edge hs, hx, ht⟩)

/-- What is derived belongs to every assignment of categories that agrees with what is remembered. -/
theorem SolvesCategories.has_of_derives {u : ElementId → Categories} (hu : m.SolvesCategories u)
    (h : m.RemembersTypes) (hx : m.Derives x c) : (u x).has c := by
  obtain ⟨e, hxe, he⟩ := hx
  induction hxe using ReflTransGen.head_induction_on with
  | refl =>
    rw [shown_eq h] at he
    cases hmemo : m.memos.get e with
    | unknown =>
      rw [hmemo] at he
      exact (hu.unknown hmemo c).2 (Or.inl he)
    | inProgress => exact absurd hmemo (h.settled e)
    | done b =>
      rw [hmemo] at he
      rwa [hu.done hmemo]
  | head hstep _ ih => exact (hu.unknown hstep.2.1 c).2 (Or.inr ⟨_, hstep.2.2, ih⟩)

/-- In every model, no categories are being derived. There are least categories that agree with what
is remembered. A query answers with those of the declaration, remembers them of every type of which
nothing was remembered and to which the declaration leads through such types, and leaves all else that
is remembered as it is. -/
theorem askCategories_least (h : m.Reachable) :
    (∀ x, m.memos.get x ≠ .inProgress) ∧
    ∃ u, m.SolvesCategories u ∧
      (∀ v, m.SolvesCategories v → ∀ x c, (u x).has c → (v x).has c) ∧
      ∀ d, m.contains d → (m.askCategories d).1 = u d ∧
        (∀ x, m.Enters d x → (m.askCategories d).2.memos.get x = .done (u x)) ∧
        ∀ x, ¬ m.Enters d x → (m.askCategories d).2.memos.get x = m.memos.get x := by
  have hm := h.remembersTypes
  refine ⟨hm.settled, _, solvesCategories_askCategories h.coherent hm, ?_, fun d _ => ⟨rfl, ?_, ?_⟩⟩
  · intro v hv x c hx
    exact hv.has_of_derives hm ((askCategories_has_iff_derives hm.settled x c).1 hx)
  · intro x hx
    obtain ⟨b, hb⟩ := exists_done_askCategories hm.settled hx
    have hvalue : b = (m.askCategories x).1 := by
      apply Categories.eq_of_has
      intro c
      rw [Bool.eq_iff_iff, done_askCategories hm.settled hx.1 hb,
        askCategories_has_iff_derives hm.settled]
    rw [hb, hvalue]
  · exact fun x hx => memos_askCategories_of_not_enters hx

/-- Classes on a cycle. What is remembered of one of them has been derived before its general class was
to specialize a structure, and before the cycle was closed. -/
def outdatedCycle : Model :=
  ((performAll { library := .empty }
    [.addRoot { metaclass := .klass }, .addRoot { metaclass := .klass },
      .addRoot { metaclass := .klass }, .addRoot { metaclass := .klass },
      .addRoot { metaclass := .struct },
      .request ⟨1⟩ { target := .element ⟨3⟩, kind := .subclassification },
      .request ⟨2⟩ { target := .element ⟨3⟩, kind := .subclassification },
      .request ⟨2⟩ { target := .element ⟨0⟩, kind := .subclassification }, .link]).ask
    (.categories ⟨2⟩)).performAll
    [.request ⟨3⟩ { target := .element ⟨2⟩, kind := .subclassification }, .relink ⟨3⟩,
      .request ⟨0⟩ { target := .element ⟨4⟩, kind := .subclassification }, .relink ⟨0⟩]

theorem askCategories_least_outdatedCycle :
    outdatedCycle.Reachable ∧ outdatedCycle.Specializes ⟨1⟩ ⟨4⟩ ∧
    ∃ u, outdatedCycle.SolvesCategories u ∧ u ⟨1⟩ = Metaclass.klass.categories ∧
      (outdatedCycle.askCategories ⟨1⟩).2.memos.get ⟨3⟩ = .done Metaclass.klass.categories ∧
      (outdatedCycle.askCategories ⟨1⟩).2.memos.get ⟨0⟩ = .unknown := by
  have hreachable : outdatedCycle.Reachable :=
    (((Reachable.empty _).performAll _).ask _).performAll _
  obtain ⟨-, u, hsolves, -, hasked⟩ := askCategories_least hreachable
  obtain ⟨hone, hentered, hkept⟩ := hasked ⟨1⟩ (by decide +kernel)
  obtain ⟨hthree, -, -⟩ := hasked ⟨3⟩ (by decide +kernel)
  have hasks : outdatedCycle.Asks ⟨1⟩ ⟨3⟩ := by
    unfold Asks
    decide +kernel
  refine ⟨hreachable, ?_, u, hsolves, ?_, ?_, ?_⟩
  · refine .head (b := ⟨3⟩) ?_ (.head (b := ⟨2⟩) ?_ (.head (b := ⟨0⟩) ?_ (.single ?_)))
    all_goals decide +kernel
  · rw [← hone]
    decide +kernel
  · rw [hentered ⟨3⟩ ⟨by decide +kernel, by decide +kernel, .single hasks⟩, ← hthree]
    decide +kernel
  · refine (hkept ⟨0⟩ fun hzero => ?_).trans (by decide +kernel)
    -- the second class is remembered, so that nothing behind it is entered
    have hstep : ∀ y ∈ [⟨1⟩, ⟨3⟩, ⟨2⟩], outdatedCycle.memos.get y = .unknown →
        ∀ x ∈ outdatedCycle.generalTypes y, x ∈ [⟨1⟩, ⟨3⟩, ⟨2⟩] := by decide +kernel
    have hbehind : ∀ x, ReflTransGen outdatedCycle.Asks ⟨1⟩ x → x ∈ [⟨1⟩, ⟨3⟩, ⟨2⟩] := by
      intro x hx
      induction hx with
      | refl => exact List.mem_cons_self
      | tail _ hasks ih => exact hstep _ ih hasks.2.1 _ hasks.2.2
    exact absurd (hbehind ⟨0⟩ hzero.2.2) (by decide)

end Kerml.Model
