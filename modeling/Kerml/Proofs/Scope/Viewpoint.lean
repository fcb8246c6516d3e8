import Kerml.Proofs.Scope.Redefinition

/-!
# The two viewpoints compared

What is followed from outside is followed from within, and every audience sees what outsiders see,
so that only redefinitions hide from within what is visible from outside.
-/
namespace Kerml.Model

open Relation

variable {m : Model} {v : Viewpoint} {d t : ElementId} {isOwn : Bool}

/-- A declaration has a name, declared or taken, or a short one. -/
def HasName (m : Model) (t : ElementId) : Prop :=
  (m.effectiveName t).isSome ∨ (m.shortName t).isSome

/-- A declaration is offered to a scope without an import: as a member, as the declaration that is
looked at, as one of its supertypes or as a member of one. -/
def Offers (m : Model) (v : Viewpoint) (d t : ElementId) : Prop :=
  t ∈ m.membersFor d v.ownAudience ∨ (v = .inside ∧ m.isType d ∧ t = d) ∨
    ∃ a ∈ m.scopeAncestors v d,
      (v = .inside ∧ a.isWritten ∧ a.element = t) ∨ t ∈ m.membersFor a.element v.heirAudience

private theorem isNameable_iff {c : Candidate} :
    c.isNameable m ↔ c.newName.isSome ∨ m.HasName c.element := by
  simp [Candidate.isNameable, HasName, or_assoc]

/-- Without redefinitions, what is imported is visible if the import or the declaration has a name,
and what is offered otherwise if the declaration has one. -/
theorem mem_unhidden_iff : t ∈ (m.unhiddenEntries v d).map (·.element) ↔
    (∃ i ∈ m.imported d, i.element = t ∧ (i.newName.isSome ∨ m.HasName t)) ∨
      m.HasName t ∧ m.Offers v d t := by
  rw [mem_elements_unhiddenEntries_iff, candidates_eq_listed, listed]
  simp only [List.mem_append, List.mem_map, List.mem_flatMap, List.mem_ite_nil_right,
    List.mem_singleton, isNameable_iff]
  constructor
  · rintro ⟨c, ((⟨e, he, rfl⟩ | ⟨i, hi, rfl⟩) | ⟨⟨hd, rfl⟩, rfl⟩) |
      ⟨a, ha, ⟨⟨rfl, hwritten⟩, rfl⟩ | ⟨e, he, rfl⟩⟩, hname, rfl⟩
    · exact Or.inr ⟨hname.resolve_left (by simp), Or.inl he⟩
    · exact Or.inl ⟨i, hi, rfl, hname⟩
    · exact Or.inr ⟨hname.resolve_left (by simp), Or.inr (Or.inl ⟨rfl, hd, rfl⟩)⟩
    · exact Or.inr ⟨hname.resolve_left (by simp),
        Or.inr (Or.inr ⟨a, ha, Or.inl ⟨rfl, hwritten, rfl⟩⟩)⟩
    · exact Or.inr ⟨hname.resolve_left (by simp), Or.inr (Or.inr ⟨a, ha, Or.inr he⟩)⟩
  · rintro (⟨i, hi, rfl, hname⟩ | ⟨hname, he | ⟨rfl, hd, rfl⟩ |
      ⟨a, ha, ⟨rfl, hwritten, rfl⟩ | he⟩⟩)
    · exact ⟨_, Or.inl (Or.inl (Or.inr ⟨i, hi, rfl⟩)), hname, rfl⟩
    · exact ⟨_, Or.inl (Or.inl (Or.inl ⟨t, he, rfl⟩)), Or.inr hname, rfl⟩
    · exact ⟨_, Or.inl (Or.inr ⟨⟨hd, rfl⟩, rfl⟩), Or.inr hname, rfl⟩
    · exact ⟨_, Or.inr ⟨a, ha, Or.inl ⟨⟨rfl, hwritten⟩, rfl⟩⟩, Or.inr hname, rfl⟩
    · exact ⟨_, Or.inr ⟨a, ha, Or.inr ⟨t, he, rfl⟩⟩, Or.inr hname, rfl⟩

theorem Follows.inside (h : m.Follows .outside isOwn d t) : m.Follows .inside isOwn d t := by
  obtain ⟨s, hs, ht, hkind, hnot, hvisible⟩ := h
  rcases hvisible with hpublic | ⟨hinside, -⟩
  · exact ⟨s, hs, ht, hkind, hnot, Or.inl hpublic⟩
  · cases hinside

theorem Inherits.inside (h : m.Inherits .outside d t) : m.Inherits .inside d t := by
  obtain ⟨a, hda, hat⟩ := h
  exact ⟨a, hda.inside, ReflTransGen.mono (fun _ _ => Follows.inside) _ _ hat⟩

/-- All supertypes that are found from outside are found from within. -/
theorem mem_scopeAncestors_inside (h : Coherent m)
    (ht : t ∈ (m.scopeAncestors .outside d).map (·.element)) :
    t ∈ (m.scopeAncestors .inside d).map (·.element) := by
  rw [mem_scopeAncestors_iff h] at ht ⊢
  exact ⟨ht.1, ht.2.1, ht.2.2.inside⟩

/-- Members that outsiders see are seen by all. -/
theorem mem_membersFor_of_outsider {audience : Audience} (ht : t ∈ m.membersFor d .outsider) :
    t ∈ m.membersFor d audience := by
  obtain ⟨hmember, hpublic⟩ := List.mem_filter.1 ht
  refine List.mem_filter.2 ⟨hmember, ?_⟩
  have hvisibility : m.visibility t = .pub := by simpa [Visibility.admits] using hpublic
  rw [hvisibility]
  cases audience <;> rfl

theorem Offers.inside (h : Coherent m) (ht : m.Offers .outside d t) : m.Offers .inside d t := by
  rcases ht with hmember | ⟨hinside, -⟩ | ⟨a, ha, ⟨hinside, -⟩ | hmember⟩
  · exact Or.inl (mem_membersFor_of_outsider hmember)
  · cases hinside
  · cases hinside
  · obtain ⟨b, hb, hba⟩ := List.mem_map.1
      (mem_scopeAncestors_inside h (List.mem_map_of_mem ha))
    exact Or.inr (Or.inr ⟨b, hb, Or.inr (hba ▸ mem_membersFor_of_outsider hmember)⟩)

private theorem mem_unhidden_inside (h : Coherent m)
    (ht : t ∈ (m.unhiddenEntries .outside d).map (·.element)) :
    t ∈ (m.unhiddenEntries .inside d).map (·.element) := by
  rw [mem_unhidden_iff] at ht ⊢
  exact ht.imp id fun hoffered => ⟨hoffered.1, hoffered.2.inside h⟩

private theorem contains_of_mem_elements_scope (ht : t ∈ (m.scope v d).elements) : m.contains d := by
  by_contra hd
  rw [scope, if_neg hd] at ht
  cases ht

/-- What outsiders see is visible from within as well, unless it is hidden there: a single declaration
at some distance redefines it, which is the declaration that is looked at, a member of it, or a member
of a supertype that it inherits from when it is looked at from within. -/
theorem scope_outside_subset_inside (h : m.Reachable) (ht : t ∈ (m.scope .outside d).elements) :
    t ∈ (m.scope .inside d).elements ∨
      ∃ r, m.Redefines r t ∧
        (r = d ∨ r ∈ m.members d ∨
          ∃ a ∈ (m.scopeAncestors .inside d).map (·.element), r ∈ m.members a) ∧
        ∃ k, m.redefinersAt .inside d k t = [r] := by
  have hcoherent : Coherent m := h.coherent
  have hd : m.contains d := contains_of_mem_elements_scope ht
  have hunhidden := mem_unhidden_inside hcoherent ((mem_elements_scope_iff hcoherent hd).1 ht).1
  by_cases hkept : ∀ k, (m.redefinersAt .inside d k t).length ≠ 1
  · exact Or.inl ((mem_elements_scope_iff hcoherent hd).2 ⟨hunhidden, hkept⟩)
  · obtain ⟨k, hone⟩ := not_forall_not.1 hkept
    obtain ⟨r, hr⟩ := List.length_eq_one_iff.1 hone
    have hmem : r ∈ m.redefinersAt .inside d k t := by simp [hr]
    obtain ⟨hredefines, hsite⟩ := mem_redefinersAt_iff.1 hmem
    refine Or.inr ⟨r, hredefines, ?_, k, hr⟩
    rcases hsite with ⟨-, hself | hown⟩ | ⟨a, ha, -, hinherited⟩
    · exact Or.inl hself
    · exact Or.inr (Or.inl hown)
    · exact Or.inr (Or.inr ⟨a, ha, hinherited⟩)

/-- Two classes that specialize each other, one of which privately specializes a third class as well.
A feature of that one redefines a feature of the other. -/
def privateSupertype : Model :=
  performAll { library := .empty }
    [.addRoot { metaclass := .klass, name := some "A" },
      .add ⟨0⟩ { metaclass := .feature, name := some "x" },
      .addRoot { metaclass := .klass, name := some "B" },
      .add ⟨2⟩ { metaclass := .feature, name := some "y" },
      .addRoot { metaclass := .klass, name := some "C" },
      .add ⟨4⟩ { metaclass := .feature, name := some "z" },
      .request ⟨4⟩ { target := .element ⟨0⟩, kind := .subclassification },
      .request ⟨4⟩ { target := .element ⟨2⟩, kind := .subclassification, visibility := .priv },
      .request ⟨0⟩ { target := .element ⟨4⟩, kind := .subclassification },
      .request ⟨3⟩ { target := .element ⟨1⟩, kind := .redefinition },
      .link]

theorem scope_outside_subset_inside_privateSupertype :
    privateSupertype.Reachable ∧
    (privateSupertype.scope .outside ⟨4⟩).elements = [⟨5⟩, ⟨1⟩] ∧
    (privateSupertype.scope .inside ⟨4⟩).elements = [⟨5⟩, ⟨4⟩, ⟨0⟩, ⟨2⟩, ⟨3⟩] ∧
    ∃ r, privateSupertype.Redefines r ⟨1⟩ ∧
      (r = ⟨4⟩ ∨ r ∈ privateSupertype.members ⟨4⟩ ∨
        ∃ a ∈ (privateSupertype.scopeAncestors .inside ⟨4⟩).map (·.element),
          r ∈ privateSupertype.members a) ∧
      ∃ k, privateSupertype.redefinersAt .inside ⟨4⟩ k ⟨1⟩ = [r] := by
  have hreachable : privateSupertype.Reachable := (Reachable.empty .empty).performAll _
  have houtside : (privateSupertype.scope .outside ⟨4⟩).elements = [⟨5⟩, ⟨1⟩] := by cbv
  have hinside : (privateSupertype.scope .inside ⟨4⟩).elements =
      [⟨5⟩, ⟨4⟩, ⟨0⟩, ⟨2⟩, ⟨3⟩] := by cbv
  have hvisible : ⟨1⟩ ∈ (privateSupertype.scope .outside ⟨4⟩).elements := by
    rw [houtside]
    decide
  refine ⟨hreachable, houtside, hinside, ?_⟩
  refine (scope_outside_subset_inside hreachable hvisible).resolve_left ?_
  rw [hinside]
  decide

end Kerml.Model
