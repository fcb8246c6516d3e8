import Kerml.Proofs.Classification.Memos

/-!
# What queries for categories learn

There is little to be learned from the same queries again. Answers stay the same whatever has been
learned, and so do the roles that are found by them.
-/
namespace Kerml.Model

open Relation

variable {m n k : Model} {d e x t : ElementId} {c : Category}

/-- A model with the declarations and the specializations of another one. What more is remembered in
it of categories is what is derived in the other one. -/
structure Learns (m n : Model) : Prop where
  forest : n.toForest = m.toForest
  specializations : n.specializations.get = m.specializations.get
  memos : ∀ x, n.memos.get x = m.memos.get x ∨
    m.memos.get x = .unknown ∧ m.isType x ∧
      ∃ b, n.memos.get x = .done b ∧ ∀ c, b.has c ↔ m.Derives x c

namespace Learns

theorem refl (m : Model) : Learns m m := ⟨rfl, rfl, fun _ => Or.inl rfl⟩

theorem generalTypes (h : Learns m n) : n.generalTypes = m.generalTypes := by
  funext d
  simp only [Model.generalTypes, specializationsOf, h.specializations]

theorem unknown (h : Learns m n) (hx : n.memos.get x = .unknown) : m.memos.get x = .unknown := by
  rcases h.memos x with hsame | ⟨hunknown, -⟩
  · exact hsame ▸ hx
  · exact hunknown

private theorem asks (h : Learns m n) (hx : n.Asks x t) : m.Asks x t := by
  obtain ⟨htype, hunknown, hgeneral⟩ := hx
  exact ⟨h.forest ▸ htype, h.unknown hunknown, h.generalTypes ▸ hgeneral⟩

private theorem derives_of_shown (h : Learns m n) (hx : (n.shown x).has c) : m.Derives x c := by
  rw [shown, h.forest] at hx
  rcases h.memos x with hsame | ⟨-, htype, b, hb, hvalue⟩
  · exact .shown (by rwa [shown, ← hsame])
  · rw [if_pos htype, hb] at hx
    exact (hvalue c).1 hx

theorem derives_iff (h : Learns m n) : n.Derives x c ↔ m.Derives x c := by
  constructor
  · rintro ⟨e, hxe, he⟩
    exact (h.derives_of_shown he).head (hxe.lift id fun _ _ => h.asks)
  · rintro ⟨e, hxe, he⟩
    -- a type of which more is remembered shows what it has derived, and the rest is as before
    have hlearned : ∀ y, m.Derives y c → n.memos.get y ≠ m.memos.get y → n.Derives y c := by
      intro y hy hne
      obtain ⟨-, htype, b, hb, hvalue⟩ := (h.memos y).resolve_left hne
      refine .shown ?_
      rw [shown, if_pos (h.forest ▸ htype), hb]
      exact (hvalue c).2 hy
    induction hxe using ReflTransGen.head_induction_on with
    | refl =>
      by_cases hsame : n.memos.get e = m.memos.get e
      · exact .shown (by rwa [shown, h.forest, hsame])
      · exact hlearned e (.shown he) hsame
    | @head y t hyt hte ih =>
      by_cases hsame : n.memos.get y = m.memos.get y
      · obtain ⟨htype, hunknown, hgeneral⟩ := hyt
        have hasks : n.Asks y t :=
          ⟨h.forest ▸ htype, hsame.trans hunknown, h.generalTypes ▸ hgeneral⟩
        exact ih.head (.single hasks)
      · exact hlearned y ⟨e, .head hyt hte, he⟩ hsame

private theorem retains (h : Learns m n) : Retains m n := by
  intro x
  rcases h.memos x with hsame | ⟨hunknown, htype, b, hb, -⟩
  · exact Or.inl hsame
  · exact Or.inr ⟨htype, hunknown, b, hb⟩

theorem settled (h : Learns m n) (hm : m.Settled) : n.Settled :=
  h.retains.settled hm

theorem trans (h : Learns m n) (h' : Learns n k) : Learns m k where
  forest := h'.forest.trans h.forest
  specializations := h'.specializations.trans h.specializations
  memos x := by
    rcases h'.memos x with hsame | ⟨hunknown, htype, b, hb, hvalue⟩
    · rw [hsame]
      exact h.memos x
    · refine Or.inr ⟨h.unknown hunknown, h.forest ▸ htype, b, hb, fun c => ?_⟩
      rw [hvalue, h.derives_iff]

theorem askCategories_fst (h : Learns m n) (hm : m.Settled) (d : ElementId) :
    (n.askCategories d).1 = (m.askCategories d).1 := by
  apply Categories.eq_of_has
  intro c
  rw [Bool.eq_iff_iff, askCategories_has_iff_derives (h.settled hm),
    askCategories_has_iff_derives hm, h.derives_iff]

end Learns

theorem learns_askCategories (h : m.Settled) (d : ElementId) : Learns m (m.askCategories d).2 where
  forest := (askCategories_sameButMemos m d).sameEdges.forest
  specializations := by rw [(askCategories_sameButMemos m d).sameEdges.specializations]
  memos x := by
    rcases retains_askCategories h d x with hkept | ⟨htype, hunknown, b, hb⟩
    · exact Or.inl hkept
    · exact Or.inr ⟨hunknown, htype, b, hb, fun c => done_askCategories h htype hb⟩

theorem Learns.askOwnerCategories (h : Learns m n) (hm : m.Settled) (d : ElementId) :
    (n.askOwnerCategories d).1 = (m.askOwnerCategories d).1 ∧
      ∀ e, ((n.askOwnerCategories d).2.askCategories e).1 =
        ((m.askOwnerCategories d).2.askCategories e).1 := by
  rw [Model.askOwnerCategories, Model.askOwnerCategories, h.forest]
  cases m.owner d with
  | none => exact ⟨rfl, h.askCategories_fst hm⟩
  | some o =>
    refine ⟨h.askCategories_fst hm o, fun e => ?_⟩
    rw [(learns_askCategories (h.settled hm) o).askCategories_fst (h.settled hm),
      (learns_askCategories hm o).askCategories_fst hm, h.askCategories_fst hm]

/-- The role of a type is found to be the same whatever has been learned before. -/
theorem Learns.askRole (h : Learns m n) (hm : m.Settled) (d : ElementId) :
    (n.askRole d).1 = (m.askRole d).1 := by
  obtain ⟨howners, hown⟩ := h.askOwnerCategories hm d
  have hforest := h.forest
  have hforest' := (askOwnerCategories_sameButMemos n d).sameEdges.forest
  have hforest'' := (askOwnerCategories_sameButMemos m d).sameEdges.forest
  simp only [Model.askRole, hforest, hforest', hforest'']
  split
  · rfl
  · split
    · rfl
    · split
      · rw [howners]
      · rfl
      · rw [howners, hown]

theorem Learns.hasWrittenSupertype (h : Learns m n) :
    n.hasWrittenSupertype = m.hasWrittenSupertype := by
  funext d
  simp only [Model.hasWrittenSupertype, h.forest, h.specializations]

theorem Learns.askRoles (h : Learns m n) (hm : m.Settled) (d : ElementId) :
    (n.askRoles d).1 = (m.askRoles d).1 := by
  have hasked := (askRole_sameButMemos m d).sameEdges.forest
  have hasked' := (askRole_sameButMemos n d).sameEdges.forest.trans h.forest
  simp only [Model.askRoles, h.hasWrittenSupertype]
  split
  · simp only [isParticipant_of_forest h.forest]
  · simp only [h.askRole hm, isParticipant_of_forest hasked, isParticipant_of_forest hasked']

theorem Learns.informants (h : Learns m n) (d : ElementId) : n.informants d = m.informants d := by
  simp only [Model.informants, h.forest, h.hasWrittenSupertype]

/-- A query does not enter the declaration: it is no type, or its categories are remembered. -/
def Knows (m : Model) (d : ElementId) : Prop :=
  m.isType d → m.memos.get d ≠ .unknown

/-- A type of which more is remembered in the second model leads only to what is remembered in it. -/
def Exhausts (m n : Model) : Prop :=
  ∀ x, m.memos.get x = .unknown → n.memos.get x ≠ .unknown → ∀ t ∈ m.generalTypes x, n.Knows t

theorem Learns.knows (h : Learns m n) (hd : m.Knows d) : n.Knows d := by
  intro htype
  rcases h.memos d with hsame | ⟨-, -, b, hb, -⟩
  · rw [hsame]
    exact hd (h.forest ▸ htype)
  · simp [hb]

private theorem knows_askCategories (h : m.Settled) (d : ElementId) : (m.askCategories d).2.Knows d := by
  intro htype
  rw [(askCategories_sameButMemos m d).sameEdges.forest] at htype
  by_cases hunknown : m.memos.get d = .unknown
  · obtain ⟨b, hb⟩ := exists_done_askCategories h ⟨htype, hunknown, .refl⟩
    simp [hb]
  · rw [memos_askCategories_of_not_enters fun henters => hunknown henters.2.1]
    exact hunknown

private theorem exhausts_askCategories (h : m.Settled) (d : ElementId) :
    Exhausts m (m.askCategories d).2 := by
  intro x hunknown hknown t ht htype
  rw [(askCategories_sameButMemos m d).sameEdges.forest] at htype
  have hx : m.Enters d x := by
    by_contra hnot
    exact hknown ((memos_askCategories_of_not_enters hnot).trans hunknown)
  by_cases hunseen : m.memos.get t = .unknown
  · have henters : m.Enters d t := ⟨htype, hunseen, hx.2.2.tail ⟨hx.1, hx.2.1, ht⟩⟩
    obtain ⟨b, hb⟩ := exists_done_askCategories h henters
    simp [hb]
  · rw [memos_askCategories_of_not_enters fun henters => hunseen henters.2.1]
    exact hunseen

theorem Exhausts.trans (h : Exhausts m n) (hn : Learns m n) (h' : Exhausts n k) (hk : Learns n k) :
    Exhausts m k := by
  intro x hunknown hknown t ht
  by_cases hunseen : n.memos.get x = .unknown
  · exact h' x hunseen hknown t (hn.generalTypes ▸ ht)
  · exact hk.knows (h x hunknown hunseen t ht)

/-- After several queries each of the declarations is known, and so is all that they have been found to
lead to. -/
theorem exhausts_foldl (h : m.Settled) (es : List ElementId) :
    let k := es.foldl (fun n e => (n.askCategories e).2) m
    Learns m k ∧ Exhausts m k ∧ ∀ e ∈ es, k.Knows e := by
  induction es generalizing m with
  | nil =>
    exact ⟨.refl m, fun x hunknown hknown => absurd hunknown hknown,
      fun e he => absurd he List.not_mem_nil⟩
  | cons e es ih =>
    have hasked := learns_askCategories h e
    obtain ⟨hlearns, hexhausts, hknows⟩ := ih (hasked.settled h)
    refine ⟨hasked.trans hlearns, (exhausts_askCategories h e).trans hasked hexhausts hlearns, ?_⟩
    intro e' he'
    rcases List.mem_cons.1 he' with rfl | he'
    · exact hlearns.knows (knows_askCategories h e')
    · exact hknows e' he'

/-- A query enters at most one declaration if all others that it could come to first are known. -/
theorem Enters.eq_of_knows (h : m.Enters e x) (he : e ≠ d → m.Knows e)
    (hd : e = d → ∀ t ∈ m.generalTypes d, t ≠ d → m.Knows t) : x = d := by
  obtain ⟨htype, hunknown, hpath⟩ := h
  have hall : ∀ y, ReflTransGen m.Asks e y → y = d ∨ m.Knows y := by
    intro y hy
    induction hy with
    | refl => exact (eq_or_ne e d).imp_right he
    | @tail y t hey hyt ih =>
      obtain ⟨htype, hunknown, hgeneral⟩ := hyt
      obtain rfl : y = d := ih.resolve_right fun hknows => hknows htype hunknown
      have hstart : e = y := by
        by_contra hne
        rcases ReflTransGen.cases_head hey with heq | ⟨t, ht, -⟩
        · exact hne heq
        · exact he hne ht.1 ht.2.1
      exact (eq_or_ne t y).imp_right (hd hstart t hgeneral)
  exact (hall x hpath).resolve_right fun hknows => hknows htype hunknown

/-- When the informants of a declaration are known, and so is all that the declaration itself leads to,
asking them adds nothing to what is remembered of others. -/
theorem memos_consulted_of_knows (he : ∀ e ∈ m.informants d, e ≠ d → m.Knows e)
    (hd : d ∈ m.informants d → ∀ t ∈ m.generalTypes d, t ≠ d → m.Knows t) (hx : x ≠ d) :
    (m.consulted d).memos.get x = m.memos.get x := by
  have hall : SameButMemos m (m.consulted d) ∧
      ∀ x, x ≠ d → (m.consulted d).memos.get x = m.memos.get x := by
    refine consulted_induction
      (p := fun n => SameButMemos m n ∧ ∀ x, x ≠ d → n.memos.get x = m.memos.get x)
      ⟨.refl m, fun _ _ => rfl⟩ fun n hn e hmem => ?_
    obtain ⟨hsame, hmemos⟩ := hn
    have hgenerals : n.generalTypes d = m.generalTypes d := by
      rw [generalTypes, generalTypes, specializationsOf, specializationsOf,
        hsame.sameEdges.specializations]
    have hknows : ∀ t, t ≠ d → m.Knows t → n.Knows t := by
      intro t ht
      rw [Knows, Knows, hsame.sameEdges.forest, hmemos t ht]
      exact id
    refine ⟨hsame.trans (askCategories_sameButMemos n e), fun x hx => ?_⟩
    refine (memos_askCategories_of_not_enters fun henters => hx ?_).trans (hmemos x hx)
    refine henters.eq_of_knows (fun hne => hknows e hne (he e hmem hne)) fun heq t ht htd => ?_
    exact hknows t htd (hd (heq ▸ hmem) t (hgenerals ▸ ht) htd)
  exact hall.2 x hx

end Kerml.Model
