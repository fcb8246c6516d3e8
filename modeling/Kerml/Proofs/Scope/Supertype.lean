import Kerml.Proofs.Link.Generals
import Kerml.Proofs.Scope.Viewpoint

/-!
# The names of supertypes

A type that is looked at from within sees the names of the supertypes that it finds by written
specializations. Which specialization counts is decided where a supertype is found first, so that
an implied one can come before the one that the type itself writes down.
-/
namespace Kerml

namespace Model

variable {m : Model} {v : Viewpoint} {isOwn : Bool} {d t : ElementId} {a : Ancestor}

def wayTo? (m : Model) (v : Viewpoint) (isOwn : Bool) (d t : ElementId) : Option Specialization :=
  (m.followed v isOwn d).find? (·.general == t)

/-- The specialization by which a supertype is found. Of those that lead to it from the declaration
and from supertypes found earlier, it is the one that belongs to what was found last. -/
def foundBy? (m : Model) (v : Viewpoint) (d t : ElementId) : Option Specialization :=
  let earlier := (m.scopeAncestors v d).takeWhile (·.element != t)
  (earlier.reverse.findSome? fun a => m.wayTo? v false a.element t).or (m.wayTo? v true d t)

private theorem wayTo?_eq_none (h : ¬ m.Follows v isOwn d t) : m.wayTo? v isOwn d t = none := by
  rw [wayTo?, List.find?_eq_none]
  intro s hs hgeneral
  exact h (follows_iff.2 ⟨s, hs, by simpa using hgeneral⟩)

end Model

/-- Where taking ends within the first of two lists, the second does not matter. -/
theorem takeWhile_append_of_mem {α : Type} {p : α → Bool} {a : α} {as : List α} (ha : a ∈ as)
    (hp : p a = false) (bs : List α) : (as ++ bs).takeWhile p = as.takeWhile p := by
  rw [List.takeWhile_append, if_neg]
  intro hlength
  have hall : as.takeWhile p = as := (List.takeWhile_prefix p).eq_of_length hlength
  have hpa : p a = true := List.takeWhile_eq_self_iff.1 hall a ha
  simp [hp] at hpa

/-- Each supertype is found by the last specialization that leads to it from what was found before,
or else by the first pending one. -/
theorem Explores.found_by {m : Model} {v : Viewpoint} {visited after : List ElementId}
    {pending : List Specialization} {found : List Ancestor} {t : ElementId}
    (h : Explores m v visited pending found after) (ht : t ∈ found.map (·.element)) :
    ∃ a ∈ found, a.element = t ∧ ∃ s,
      ((found.takeWhile (·.element != t)).reverse.findSome? fun b =>
        m.wayTo? v false b.element t).or (pending.find? (·.general == t)) = some s ∧
      a.isWritten = !s.isImplied := by
  induction h with
  | nil => simp at ht
  | @skip s rest visited found after hs hrest ih =>
    have hne : (s.general == t) = false := by
      rw [beq_eq_false_iff_ne]
      exact fun heq => hrest.fresh_nodup.1 t ht (heq ▸ hs)
    rw [List.find?_cons, hne]
    exact ih ht
  | @enter s rest visited above between found after hs habove hrest ihabove ihrest =>
    by_cases hst : s.general = t
    · exact ⟨_, List.mem_cons_self, hst, s, by simp [hst], rfl⟩
    rcases Explores.mem_elements_iff.1 ht with rfl | hmem | hmem
    · exact absurd rfl hst
    · -- the entered supertype is the first of those that are found before
      obtain ⟨a, ha, hat, r, hr, hwritten⟩ := ihabove hmem
      refine ⟨a, List.mem_append_left _ (List.mem_cons_of_mem _ ha), hat, r, ?_, hwritten⟩
      rw [List.cons_append, List.takeWhile_cons_of_pos (by simpa using hst),
        takeWhile_append_of_mem ha (by simp [hat]), List.reverse_cons, List.findSome?_append,
        List.findSome?_singleton]
      change ((_ : Option Specialization).or ((m.followed v false s.general).find? _)).or _ = _
      rw [hr, Option.some_or]
    · -- nothing that was found on the way leads to what is found afterwards
      obtain ⟨a, ha, hat, r, hr, hwritten⟩ := ihrest hmem
      have hnew : t ∉ between := hrest.fresh_nodup.1 t hmem
      have hearlier : ∀ b ∈ ⟨s.general, !s.isImplied⟩ :: above, b.element ≠ t ∧
          m.wayTo? v false b.element t = none := by
        intro b hb
        constructor
        · rintro rfl
          refine hnew (habove.mem_after_iff.2 ?_)
          rcases List.mem_cons.1 hb with rfl | hb
          · exact Or.inl List.mem_cons_self
          · exact Or.inr (List.mem_map_of_mem hb)
        · refine Model.wayTo?_eq_none fun hfollows => hnew ?_
          rcases List.mem_cons.1 hb with rfl | hb
          · obtain ⟨q, hq, rfl⟩ := Model.follows_iff.1 hfollows
            exact habove.general_mem_after q hq
          · exact habove.closed _ (List.mem_map_of_mem hb) t hfollows
      refine ⟨a, List.mem_append_right _ ha, hat, r, ?_, hwritten⟩
      have hnone : (⟨s.general, !s.isImplied⟩ :: above).reverse.findSome?
          (fun b => m.wayTo? v false b.element t) = none := by
        rw [List.findSome?_eq_none_iff]
        exact fun b hb => (hearlier b (List.mem_reverse.1 hb)).2
      rw [List.takeWhile_append_of_pos (fun b hb => by simpa using (hearlier b hb).1),
        List.reverse_append, List.findSome?_append, hnone, Option.or_none,
        List.find?_cons_of_neg (by simpa using hst)]
      exact hr

namespace Model

variable {m : Model} {v : Viewpoint} {d t : ElementId} {s : Specialization}

/-- Whether a supertype counts as a written one depends on the specialization by which it is found. -/
theorem exists_foundBy (h : Coherent m) (ht : t ∈ (m.scopeAncestors v d).map (·.element)) :
    ∃ a ∈ m.scopeAncestors v d, a.element = t ∧
      ∃ r, m.foundBy? v d t = some r ∧ a.isWritten = !r.isImplied := by
  have hd : m.isType d := ((mem_scopeAncestors_iff h).1 ht).1
  have hall : m.scopeAncestors v d = m.ancestors v d := by rw [scopeAncestors, if_pos hd]
  obtain ⟨after, hexplores⟩ := explores_ancestors (v := v) h d
  rw [foundBy?, hall]
  exact hexplores.found_by (hall ▸ ht)

theorem mem_followed_of_wayTo? {isOwn : Bool} (h : m.wayTo? v isOwn d t = some s) :
    s ∈ m.followed v isOwn d ∧ s.general = t :=
  ⟨List.mem_of_find?_eq_some h, by simpa using List.find?_some h⟩

/-- The specialization by which a supertype is found belongs to the declaration or to another one of
its supertypes. -/
theorem followed_of_foundBy? (h : m.foundBy? v d t = some s) : s.general = t ∧
    (s ∈ m.followed v true d ∨ ∃ a ∈ m.scopeAncestors v d, s ∈ m.followed v false a.element) := by
  rcases Option.or_eq_some_iff.1 h with habove | ⟨-, hown⟩
  · obtain ⟨a, ha, hway⟩ := List.exists_of_findSome?_eq_some habove
    obtain ⟨hs, hgeneral⟩ := mem_followed_of_wayTo? hway
    have hfound := (List.takeWhile_prefix _).subset (List.mem_reverse.1 ha)
    exact ⟨hgeneral, Or.inr ⟨a, hfound, hs⟩⟩
  · obtain ⟨hs, hgeneral⟩ := mem_followed_of_wayTo? hown
    exact ⟨hgeneral, Or.inl hs⟩

/-- What is visible from within a declaration other than by the names of its supertypes: the
declaration itself, its members, what it imports, and the members that it inherits. -/
def SeesOtherwise (m : Model) (d t : ElementId) : Prop :=
  t = d ∨ t ∈ m.members d ∨ (∃ i ∈ m.imported d, i.element = t) ∨
    ∃ a ∈ m.scopeAncestors .inside d, t ∈ m.membersFor a.element .heir

private theorem mem_membersFor_owner : t ∈ m.membersFor d .owner ↔ t ∈ m.members d := by
  simp [Forest.membersFor, Visibility.admits]

private theorem mem_unhidden_inside_iff (hd : m.isType d) (hname : m.HasName t) :
    t ∈ (m.unhiddenEntries .inside d).map (·.element) ↔ m.SeesOtherwise d t ∨
      ∃ a ∈ m.scopeAncestors .inside d, a.isWritten ∧ a.element = t := by
  rw [mem_unhidden_iff, Offers, SeesOtherwise]
  simp only [Viewpoint.ownAudience, Viewpoint.heirAudience, mem_membersFor_owner, hname, hd,
    or_true, true_and, and_true, and_or_left, exists_or]
  simp only [or_assoc, or_left_comm, or_comm]

/-- By the name of a supertype, a type sees what it finds by a written specialization. -/
theorem exists_written_iff (h : Coherent m) (ht : t ∈ (m.scopeAncestors .inside d).map (·.element)) :
    (∃ a ∈ m.scopeAncestors .inside d, a.isWritten ∧ a.element = t) ↔
      ∃ r, m.foundBy? .inside d t = some r ∧ r.isImplied = false := by
  obtain ⟨a, ha, hat, r, hr, hwritten⟩ := exists_foundBy h ht
  constructor
  · rintro ⟨b, hb, hbwritten, hbt⟩
    obtain rfl : b = a := List.inj_on_of_nodup_map (scopeAncestors_nodup h .inside d) hb ha
      (hbt.trans hat.symm)
    exact ⟨r, hr, by simpa [hbwritten] using hwritten⟩
  · rintro ⟨q, hq, himplied⟩
    obtain rfl : r = q := Option.some.inj (hr.symm.trans hq)
    exact ⟨a, ha, by rw [hwritten, himplied]; rfl, hat⟩

/-- A declaration specializes another one in writing and inherits from it by that. -/
structure InheritsInWriting (m : Model) (d : ElementId) (s : Specialization) : Prop where
  mem : s ∈ m.specializations.get d
  isImplied_eq : s.isImplied = false
  includes : s.kind.includes .specialization
  not_isRedefinition : ¬ s.kind.isRedefinition

namespace InheritsInWriting

theorem follows (hs : m.InheritsInWriting d s) : m.Follows .inside true d s.general :=
  ⟨s, hs.mem, rfl, hs.includes, hs.not_isRedefinition, Or.inr ⟨rfl, Or.inl rfl⟩⟩

theorem mem_scopeAncestors (hs : m.InheritsInWriting d s) (h : Coherent m) (hne : s.general ≠ d) :
    s.general ∈ (m.scopeAncestors .inside d).map (·.element) :=
  (mem_scopeAncestors_iff h).2
    ⟨h.isType_of_edge hs.mem, hne, s.general, hs.follows, .refl⟩

theorem mem_unhidden_iff (hs : m.InheritsInWriting d s) (h : Coherent m)
    (hname : m.HasName s.general) :
    s.general ∈ (m.unhiddenEntries .inside d).map (·.element) ↔ m.SeesOtherwise d s.general ∨
      ∃ r, m.foundBy? .inside d s.general = some r ∧ r.isImplied = false := by
  rw [mem_unhidden_inside_iff (h.isType_of_edge hs.mem) hname]
  by_cases hself : s.general = d
  · exact iff_of_true (Or.inl (Or.inl hself)) (Or.inl (Or.inl hself))
  · rw [exists_written_iff h (hs.mem_scopeAncestors h hself)]

/-- A written specialization is not overtaken where no implied one of another supertype leads to the
same declaration. -/
theorem foundBy_written (hs : m.InheritsInWriting d s) (h : m.Reachable) (hne : s.general ≠ d)
    (hways : ∀ a ∈ m.scopeAncestors .inside d, ∀ r ∈ m.followed .inside false a.element,
      r.general = s.general → r.isImplied = false) :
    ∃ r, m.foundBy? .inside d s.general = some r ∧ r.isImplied = false := by
  obtain ⟨-, -, -, r, hr, -⟩ := exists_foundBy h.coherent (hs.mem_scopeAncestors h.coherent hne)
  refine ⟨r, hr, ?_⟩
  obtain ⟨hgeneral, hown | ⟨a, ha, habove⟩⟩ := followed_of_foundBy? hr
  · have hheld : r ∈ m.specializations.get d := (List.mem_filter.1 (List.mem_filter.1 hown).1).1
    rw [List.inj_on_of_nodup_map (h.specializesOnce d) hheld hs.mem hgeneral]
    exact hs.isImplied_eq
  · exact hways a ha r habove hgeneral

end InheritsInWriting

/-- A supertype with a name that a type specializes in writing is visible from within the type, unless
redefinitions hide it, if and only if it is found by a written specialization or visible otherwise. In
particular it is visible if no implied specialization of another supertype leads to it. -/
theorem written_supertype_visible_iff (h : m.Reachable) (hs : m.InheritsInWriting d s)
    (hname : m.HasName s.general) :
    (s.general ∈ (m.scope .inside d).elements ↔
      (m.SeesOtherwise d s.general ∨
        ∃ r, m.foundBy? .inside d s.general = some r ∧ r.isImplied = false) ∧
      ∀ k, (m.redefinersAt .inside d k s.general).length ≠ 1) ∧
    ((∀ a ∈ m.scopeAncestors .inside d, ∀ r ∈ m.followed .inside false a.element,
        r.general = s.general → r.isImplied = false) →
      s.general ∈ (m.scope .inside d).elements ∨
        ∃ k r, m.redefinersAt .inside d k s.general = [r]) := by
  have hcoherent : Coherent m := h.coherent
  have hd : m.contains d := Forest.contains_of_isType (hcoherent.isType_of_edge hs.mem)
  rw [mem_elements_scope_iff hcoherent hd, hs.mem_unhidden_iff hcoherent hname]
  refine ⟨Iff.rfl, fun hways => ?_⟩
  by_cases hkept : ∀ k, (m.redefinersAt .inside d k s.general).length ≠ 1
  · refine Or.inl ⟨?_, hkept⟩
    by_cases hself : s.general = d
    · exact Or.inl (Or.inl hself)
    · exact Or.inr (hs.foundBy_written h hself hways)
  · obtain ⟨k, hone⟩ := not_forall_not.1 hkept
    exact Or.inr ⟨k, List.length_eq_one_iff.1 hone⟩

/-- A class that specializes two others, the second of which is what the library implies for the
first. -/
def impliedFirst : Model :=
  performAll { library := SupertypeTable.empty.insert .klass .base "B" }
    [.addRoot { metaclass := .klass, name := some "A" },
      .addRoot { metaclass := .klass, name := some "B" },
      .addRoot { metaclass := .klass, name := some "D" },
      .request ⟨2⟩ { target := .element ⟨0⟩, kind := .subclassification },
      .request ⟨2⟩ { target := .element ⟨1⟩, kind := .subclassification },
      .link]

theorem inheritsInWriting_impliedFirst :
    impliedFirst.InheritsInWriting ⟨2⟩ { general := ⟨1⟩, kind := .subclassification } where
  mem := by decide +kernel
  isImplied_eq := rfl
  includes := by decide
  not_isRedefinition := by decide

theorem written_supertype_visible_iff_impliedFirst :
    impliedFirst.Reachable ∧
    impliedFirst.InheritsInWriting ⟨2⟩ { general := ⟨1⟩, kind := .subclassification } ∧
    impliedFirst.HasName ⟨1⟩ ∧
    impliedFirst.foundBy? .inside ⟨2⟩ ⟨1⟩ =
      some { general := ⟨1⟩, kind := .subclassification, isImplied := true } ∧
    (⟨1⟩ ∈ (impliedFirst.scope .inside ⟨2⟩).elements ↔
      (impliedFirst.SeesOtherwise ⟨2⟩ ⟨1⟩ ∨
        ∃ r, impliedFirst.foundBy? .inside ⟨2⟩ ⟨1⟩ = some r ∧ r.isImplied = false) ∧
      ∀ k, (impliedFirst.redefinersAt .inside ⟨2⟩ k ⟨1⟩).length ≠ 1) := by
  have hreachable : impliedFirst.Reachable := (Reachable.empty _).performAll _
  have hname : impliedFirst.HasName ⟨1⟩ := Or.inl (by decide +kernel)
  exact ⟨hreachable, inheritsInWriting_impliedFirst, hname, by cbv,
    (written_supertype_visible_iff hreachable inheritsInWriting_impliedFirst hname).1⟩

/-- The second class is specialized in writing and not redefined, but its name is not visible. -/
theorem impliedFirst_loses_written :
    impliedFirst.Reachable ∧
    impliedFirst.InheritsInWriting ⟨2⟩ { general := ⟨1⟩, kind := .subclassification } ∧
    impliedFirst.HasName ⟨1⟩ ∧
    ⟨1⟩ ∉ (impliedFirst.scope .inside ⟨2⟩).elements ∧
    ∀ k, impliedFirst.redefinersAt .inside ⟨2⟩ k ⟨1⟩ = [] := by
  have hreachable : impliedFirst.Reachable := (Reachable.empty _).performAll _
  have helements : (impliedFirst.scope .inside ⟨2⟩).elements = [⟨2⟩, ⟨0⟩] := by cbv
  have hnone : impliedFirst.redefinitions .inside ⟨2⟩ = [] := by cbv
  refine ⟨hreachable, inheritsInWriting_impliedFirst, Or.inl (by decide +kernel), ?_, fun k => ?_⟩
  · rw [helements]
    decide
  · rw [← distinct_selected hreachable.coherent, hnone]
    rfl

end Model
end Kerml
