import Kerml.Imported
import Kerml.Proofs.Lookup

/-!
# What a namespace exposes

It exposes itself and whatever can be reached through public members. The steps that walk through
a namespace bring in all that it exposes below itself, once each, and let each of these and itself
hand on.
-/
namespace Kerml

open Relation

/-- Public members lead from the one declaration to the other. -/
def Forest.Exposes (f : Forest) : ElementId → ElementId → Prop :=
  ReflTransGen fun d c => c ∈ f.membersFor d .outsider

open Classical in
/-- All that a declaration exposes, in order of creation. -/
noncomputable def Forest.exposed (f : Forest) (d : ElementId) : List ElementId :=
  f.ids.filter (f.Exposes d ·)

theorem Forest.mem_of_mem_membersFor {f : Forest} {a : Audience} {c d : ElementId}
    (h : c ∈ f.membersFor d a) : c ∈ f.members d :=
  (List.mem_filter.1 h).1

theorem Forest.exposed_nodup (f : Forest) (d : ElementId) : (f.exposed d).Nodup := by
  refine List.Nodup.filter _ ?_
  refine List.Nodup.map ?_ List.nodup_range
  exact fun i j hij => congrArg ElementId.index hij

namespace Forest.WellFormed

variable {f : Forest} {d e c : ElementId}

theorem within_of_exposes (h : f.WellFormed) (he : f.Exposes d e) : f.Within e d := by
  induction he with
  | refl => exact .refl
  | tail _ hc ih => exact .head (h.mem_members_iff.1 (mem_of_mem_membersFor hc)) ih

theorem contains_of_exposes (h : f.WellFormed) (he : f.Exposes d e) (hd : f.contains d) :
    f.contains e := by
  induction he with
  | refl => exact hd
  | tail _ hc _ => exact h.contains_member (mem_of_mem_membersFor hc)

theorem mem_exposed_iff (h : f.WellFormed) (hd : f.contains d) :
    e ∈ f.exposed d ↔ f.Exposes d e := by
  simp only [exposed, List.mem_filter, decide_eq_true_eq, mem_ids_iff]
  exact ⟨And.right, fun he => ⟨h.contains_of_exposes he hd, he⟩⟩

theorem exposed_perm (h : f.WellFormed) (hd : f.contains d) :
    (f.exposed d).Perm (d :: (f.exposed d).filter (· ≠ d)) := by
  have hnodup : (d :: (f.exposed d).filter (· ≠ d)).Nodup :=
    List.nodup_cons.2 ⟨by simp, (f.exposed_nodup d).filter _⟩
  rw [List.perm_ext_iff_of_nodup (f.exposed_nodup d) hnodup]
  intro e
  by_cases hed : e = d
  · simp [hed, (h.mem_exposed_iff hd).2 .refl]
  · simp [hed]

private theorem not_exposes_member (h : f.WellFormed) (hc : c ∈ f.membersFor d .outsider) :
    ¬ f.Exposes c d := by
  intro he
  have hle := h.index_le_of_within (h.within_of_exposes he)
  have hlt := h.lt_of_mem_members (mem_of_mem_membersFor hc)
  omega

/-- What a namespace exposes below itself is what its public members expose. -/
theorem exposes_and_ne_iff (h : f.WellFormed) :
    f.Exposes d e ∧ e ≠ d ↔ ∃ c ∈ f.membersFor d .outsider, f.Exposes c e := by
  constructor
  · rintro ⟨he, hne⟩
    rcases ReflTransGen.cases_head he with rfl | ⟨c, hc, hce⟩
    · exact absurd rfl hne
    · exact ⟨c, hc, hce⟩
  · rintro ⟨c, hc, hce⟩
    refine ⟨.head hc hce, ?_⟩
    rintro rfl
    exact h.not_exposes_member hc hce

end Forest.WellFormed

/-- What a step brings in by itself. -/
def ImportStep.brought? : ImportStep → Option Imported
  | .bring i => some i
  | .handOn _ => none

def ImportStep.handing? : ImportStep → Option ElementId
  | .bring _ => none
  | .handOn d => some d

namespace Model

open ImportStep

variable {m : Model} {d e : ElementId}

@[simp] theorem brought?_bring (d : ElementId) :
    (bring d).brought? = some { element := d } := rfl

@[simp] theorem handing?_bring (d : ElementId) : (bring d).handing? = none := rfl

/-- The steps of a walk without the bound that makes their definition end. -/
theorem publicSteps_eq (h : m.WellFormed) (d : ElementId) : m.publicSteps d =
    ((m.membersFor d .outsider).flatMap fun c => bring c :: m.publicSteps c) ++ [.handOn d] := by
  rw [publicSteps]
  congr 1
  apply List.flatMap_congr
  intro c hc
  have hmem := Forest.mem_of_mem_membersFor hc
  exact dif_pos ⟨h.lt_of_mem_members hmem, Forest.contains_iff.1 (h.contains_member hmem)⟩

theorem mem_handing_publicSteps (h : m.WellFormed) :
    e ∈ (m.publicSteps d).filterMap handing? ↔ m.Exposes d e := by
  induction d using h.members_induction with
  | step d ih =>
    have hmembers : ∀ c ∈ m.membersFor d .outsider,
        (e ∈ (m.publicSteps c).filterMap handing? ↔ m.Exposes c e) :=
      fun c hc => ih c (Forest.mem_of_mem_membersFor hc)
    rw [publicSteps_eq h, List.filterMap_append, List.mem_append, List.filterMap_flatMap,
      List.mem_flatMap]
    by_cases hed : e = d
    · subst hed
      simp [handing?, Forest.Exposes, ReflTransGen.refl]
    · have hiff := h.exposes_and_ne_iff (d := d) (e := e)
      simp only [hed, ne_eq, not_false_eq_true, and_true] at hiff
      rw [hiff]
      constructor
      · rintro (⟨c, hc, he⟩ | he)
        · exact ⟨c, hc, (hmembers c hc).1 (by simpa using he)⟩
        · simp [handing?, hed] at he
      · rintro ⟨c, hc, he⟩
        exact Or.inl ⟨c, hc, by simpa using (hmembers c hc).2 he⟩

theorem brought_publicSteps_eq (h : m.WellFormed) (d : ElementId) :
    (m.publicSteps d).filterMap brought? = (m.membersFor d .outsider).flatMap fun c =>
      { element := c } :: (m.publicSteps c).filterMap brought? := by
  rw [publicSteps_eq h, List.filterMap_append, List.filterMap_flatMap]
  exact List.append_nil _

theorem mem_brought_publicSteps (h : m.WellFormed) {i : Imported} :
    i ∈ (m.publicSteps d).filterMap brought? ↔
      i.newName = none ∧ m.Exposes d i.element ∧ i.element ≠ d := by
  induction d using h.members_induction with
  | step d ih =>
    rw [brought_publicSteps_eq h, List.mem_flatMap, h.exposes_and_ne_iff]
    constructor
    · rintro ⟨c, hc, hi⟩
      rcases List.mem_cons.1 hi with rfl | hi
      · exact ⟨rfl, c, hc, .refl⟩
      · have hbelow := (ih c (Forest.mem_of_mem_membersFor hc)).1 hi
        exact ⟨hbelow.1, c, hc, hbelow.2.1⟩
    · rintro ⟨hname, c, hc, he⟩
      refine ⟨c, hc, ?_⟩
      by_cases hic : i.element = c
      · refine List.mem_cons.2 (Or.inl ?_)
        cases i
        simp_all
      · exact List.mem_cons_of_mem _
          ((ih c (Forest.mem_of_mem_membersFor hc)).2 ⟨hname, he, hic⟩)

private theorem nodup_brought_publicSteps (h : m.WellFormed) (d : ElementId) :
    ((m.publicSteps d).filterMap brought?).Nodup := by
  induction d using h.members_induction with
  | step d ih =>
    rw [brought_publicSteps_eq h, List.nodup_flatMap]
    constructor
    · intro c hc
      refine List.nodup_cons.2 ⟨?_, ih c (Forest.mem_of_mem_membersFor hc)⟩
      intro hmem
      exact ((mem_brought_publicSteps h).1 hmem).2.2 rfl
    · have hexposes : ∀ {c i}, i ∈ ({ element := c } : Imported) ::
          (m.publicSteps c).filterMap brought? → m.Within i.element c := by
        intro c i hi
        rcases List.mem_cons.1 hi with rfl | hi
        · exact .refl
        · exact h.within_of_exposes ((mem_brought_publicSteps h).1 hi).2.1
      refine ((h.members_nodup d).sublist List.filter_sublist).imp_of_mem ?_
      intro a b ha hb hab i hia hib
      exact hab (h.member_unique (Forest.mem_of_mem_membersFor ha)
        (Forest.mem_of_mem_membersFor hb) (hexposes hia) (hexposes hib))

/-- A walk through a known namespace brings in all that it exposes below itself. -/
theorem brought_publicSteps_perm (h : m.WellFormed) (hd : m.contains d) :
    ((m.publicSteps d).filterMap brought?).Perm
      (((m.exposed d).filter (· ≠ d)).map ({ element := · })) := by
  have hnodup : ((m.exposed d).filter (· ≠ d)).Nodup := (m.exposed_nodup d).filter _
  have hinjective : Function.Injective fun e : ElementId => ({ element := e } : Imported) :=
    fun _ _ he => congrArg Imported.element he
  rw [List.perm_ext_iff_of_nodup (nodup_brought_publicSteps h d) (hnodup.map hinjective)]
  intro i
  rw [mem_brought_publicSteps h, List.mem_map]
  constructor
  · rintro ⟨hname, he, hne⟩
    refine ⟨i.element, List.mem_filter.2 ⟨(h.mem_exposed_iff hd).2 he, by simpa using hne⟩, ?_⟩
    cases i
    simp_all
  · rintro ⟨e, he, rfl⟩
    obtain ⟨he, hne⟩ := List.mem_filter.1 he
    exact ⟨rfl, (h.mem_exposed_iff hd).1 he, by simpa using hne⟩

end Model
end Kerml
