import Kerml.Proofs.Containment
import Kerml.Proofs.Import.Exposed

/-!
# The order in which a walk brings in what it passes

It is that of the preorder: what a walk brings in is the part of the preorder that is below the
namespace and public all the way down.
-/
namespace Kerml

open Relation

private theorem flatMap_filter_eq_ite {α β : Type} (p : α → Bool) (f : α → List β) (as : List α) :
    (as.filter p).flatMap f = as.flatMap fun a => if p a then f a else [] := by
  induction as with
  | nil => rfl
  | cons a as ih => cases h : p a <;> simp [h, ih]

/-- Whether a declaration is strictly within another one, and it and all its owners below that one
are public. -/
def Forest.isPubliclyBelow (f : Forest) (t d : ElementId) : Bool :=
  d != t && f.encloses t d &&
    ((f.ownerChain d).takeWhile (· != t)).all fun c => f.visibility c == .pub

namespace Forest.WellFormed

variable {f : Forest} {t d c : ElementId}

theorem mem_membersFor_iff (h : f.WellFormed) :
    c ∈ f.membersFor d .outsider ↔ f.owner c = some d ∧ f.visibility c = .pub := by
  simp [membersFor, h.mem_members_iff, Visibility.admits]

/-- What is within a declaration is exposed by it if there is nothing on the chain of owners up to
it that is not public. -/
theorem exposes_iff_of_within (h : f.WellFormed) (hw : f.Within d t) : f.Exposes t d ↔
    ∀ c ∈ (f.ownerChain d).takeWhile (· != t), f.visibility c = .pub := by
  induction hw using ReflTransGen.head_induction_on with
  | refl =>
    rw [h.ownerChain_eq]
    simp [Exposes, ReflTransGen.refl]
  | @head d o ho hw ih =>
    have hlt := h.owner_lt ho
    have hle := h.index_le_of_within hw
    have hne : d ≠ t := by
      rintro rfl
      omega
    rw [h.ownerChain_eq, ho, Option.map_some, Option.getD_some,
      List.takeWhile_cons_of_pos (by simpa using hne), List.forall_mem_cons, ← ih]
    constructor
    · intro he
      rcases ReflTransGen.cases_tail he with rfl | ⟨p, hp, hd⟩
      · exact absurd rfl hne
      · obtain ⟨hp', hpublic⟩ := h.mem_membersFor_iff.1 hd
        obtain rfl := Option.some.inj (ho.symm.trans hp')
        exact ⟨hpublic, hp⟩
    · rintro ⟨hpublic, he⟩
      exact he.tail (h.mem_membersFor_iff.2 ⟨ho, hpublic⟩)

theorem isPubliclyBelow_iff (h : f.WellFormed) :
    f.isPubliclyBelow t d ↔ f.Exposes t d ∧ d ≠ t := by
  simp only [isPubliclyBelow, Bool.and_eq_true, bne_iff_ne, List.all_eq_true, beq_iff_eq,
    h.encloses_iff]
  constructor
  · rintro ⟨⟨hne, hw⟩, hpublic⟩
    exact ⟨(h.exposes_iff_of_within hw).2 hpublic, hne⟩
  · rintro ⟨he, hne⟩
    have hw := h.within_of_exposes he
    exact ⟨⟨hne, hw⟩, (h.exposes_iff_of_within hw).1 he⟩

/-- Below a member there is what the member exposes, if it is public itself. -/
theorem isPubliclyBelow_iff_of_member (h : f.WellFormed) (hc : c ∈ f.members t)
    (hw : f.Within d c) : f.isPubliclyBelow t d ↔ f.visibility c = .pub ∧ f.Exposes c d := by
  rw [h.isPubliclyBelow_iff, h.exposes_and_ne_iff]
  constructor
  · rintro ⟨b, hb, he⟩
    obtain ⟨hb', hpublic⟩ := h.mem_membersFor_iff.1 hb
    obtain rfl := h.member_unique hc (h.mem_members_iff.2 hb') hw (h.within_of_exposes he)
    exact ⟨hpublic, he⟩
  · rintro ⟨hpublic, he⟩
    exact ⟨c, h.mem_membersFor_iff.2 ⟨h.mem_members_iff.1 hc, hpublic⟩, he⟩

/-- Within a public member, what is publicly below the owner is the member and what is publicly
below it. -/
theorem filter_isPubliclyBelow_member (h : f.WellFormed) (hc : c ∈ f.members t) :
    (f.subtree c).filter (f.isPubliclyBelow t) =
      if f.visibility c = .pub then c :: (f.subtree c).filter (f.isPubliclyBelow c) else [] := by
  split
  · rename_i hpublic
    have hself : ¬ f.isPubliclyBelow c c := by simp [h.isPubliclyBelow_iff]
    have htop : f.isPubliclyBelow t c :=
      (h.isPubliclyBelow_iff_of_member hc .refl).2 ⟨hpublic, .refl⟩
    rw [h.subtree_eq, List.filter_cons_of_pos htop, List.filter_cons_of_neg hself]
    congr 1
    refine List.filter_congr fun d hd => ?_
    have hbelow : d ∈ f.subtree c := by
      rw [h.subtree_eq]
      exact List.mem_cons_of_mem c hd
    have hne : d ≠ c := by
      rintro rfl
      have hnodup := h.subtree_nodup d
      rw [h.subtree_eq] at hnodup
      exact (List.nodup_cons.1 hnodup).1 hd
    rw [Bool.eq_iff_iff, h.isPubliclyBelow_iff_of_member hc (h.mem_subtree_iff.1 hbelow),
      h.isPubliclyBelow_iff]
    exact ⟨fun he => ⟨he.2, hne⟩, fun he => ⟨hpublic, he.1⟩⟩
  · rename_i hhidden
    refine List.filter_eq_nil_iff.2 fun d hd hbelow => ?_
    exact hhidden ((h.isPubliclyBelow_iff_of_member hc (h.mem_subtree_iff.1 hd)).1 hbelow).1

/-- In the preorder, what is publicly below a declaration stands in its subtree. -/
theorem filter_isPubliclyBelow_preorder (h : f.WellFormed) (ht : f.contains t) :
    f.preorder.filter (f.isPubliclyBelow t) = (f.subtree t).filter (f.isPubliclyBelow t) := by
  -- the subtree stands in one piece in the preorder, and nothing in it stands elsewhere
  obtain ⟨before, after, hsplit⟩ := h.subtree_infix_preorder ht
  have hnodup : (before ++ f.subtree t ++ after).Nodup := hsplit ▸ h.preorder_nodup
  have hbelow : ∀ {d}, f.isPubliclyBelow t d → d ∈ f.subtree t := fun hd =>
    h.mem_subtree_iff.2 (h.within_of_exposes (h.isPubliclyBelow_iff.1 hd).1)
  have hbefore : before.filter (f.isPubliclyBelow t) = [] := by
    refine List.filter_eq_nil_iff.2 fun d hd hpublic => ?_
    exact (List.nodup_append.1 (List.nodup_append.1 hnodup).1).2.2 d hd d (hbelow hpublic) rfl
  have hafter : after.filter (f.isPubliclyBelow t) = [] := by
    refine List.filter_eq_nil_iff.2 fun d hd hpublic => ?_
    exact (List.nodup_append.1 hnodup).2.2 d (List.mem_append_right _ (hbelow hpublic)) d hd rfl
  rw [← hsplit, List.filter_append, List.filter_append, hbefore, hafter, List.nil_append,
    List.append_nil]

end Forest.WellFormed

namespace Model

open ImportStep

variable {m : Model} {t : ElementId}

/-- A walk brings in what is publicly below its namespace, in the order of the preorder. -/
theorem brought_publicSteps_eq_filter (h : m.WellFormed) (ht : m.contains t) :
    (m.publicSteps t).filterMap brought? =
      (m.preorder.filter (m.isPubliclyBelow t)).map ({ element := · }) := by
  rw [h.filter_isPubliclyBelow_preorder ht]
  clear ht
  induction t using h.members_induction with
  | step t ih =>
    have hself : ¬ m.isPubliclyBelow t t := by simp [h.isPubliclyBelow_iff]
    rw [brought_publicSteps_eq h, h.subtree_eq, List.filter_cons_of_neg hself, List.filter_flatMap,
      List.map_flatMap, Forest.membersFor, flatMap_filter_eq_ite]
    refine List.flatMap_congr fun c hc => ?_
    rw [h.filter_isPubliclyBelow_member hc]
    by_cases hpublic : m.visibility c = .pub
    · simp [hpublic, Visibility.admits, ih c hc]
    · simp [hpublic, Visibility.admits]

end Model
end Kerml
