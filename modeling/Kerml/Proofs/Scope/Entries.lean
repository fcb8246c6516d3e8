import Kerml.Proofs.Distinct
import Kerml.Proofs.Scope.Explored
import Mathlib

/-!
# The entries of a scope

Each candidate with a name makes an entry unless an earlier one made an entry for the same
declaration, and redefinitions take entries out without moving the others.
-/
namespace Kerml

/-- Whether a candidate has a name, by its directive or as declared or taken, or a short one. -/
def Candidate.isNameable (c : Candidate) (m : Model) : Bool :=
  c.newName.isSome || (m.effectiveName c.element).isSome || (m.shortName c.element).isSome

namespace Model

variable {m : Model} {v : Viewpoint} {d t : ElementId} {c : Candidate} {e : ScopeEntry}

theorem isSome_entry (m : Model) (c : Candidate) :
    Option.isSome ( m.entry? c) = c.isNameable m := by
  simp [Candidate.isNameable, entry?, Bool.or_assoc]

theorem element_of_entry (h : m.entry? c = some e) : e.element = c.element := by
  obtain ⟨name, -, rfl⟩ := Option.map_eq_some_iff.1 h
  rfl

theorem origin_of_entry (h : m.entry? c = some e) : e.origin = c.origin := by
  obtain ⟨name, -, rfl⟩ := Option.map_eq_some_iff.1 h
  rfl

/-- The candidates of a scope, given the supertypes that the declaration inherits from. -/
def listed (m : Model) (v : Viewpoint) (d : ElementId) (found : List Ancestor) : List Candidate :=
  (m.membersFor d v.ownAudience).map (fun c => { element := c, origin := .own }) ++
  (m.imported d).map (fun i =>
    { element := i.element, newName := i.newName, origin := .imported }) ++
  (if m.isType d ∧ v = .inside then [{ element := d, origin := .own }] else []) ++
  found.flatMap fun a =>
    (if v = .inside ∧ a.isWritten then [{ element := a.element, origin := .inherited }] else []) ++
    (m.membersFor a.element v.heirAudience).map fun c => { element := c, origin := .inherited }

/-- The entries of those candidates before which no other one has a name for the same
declaration. -/
def firstEntries (m : Model) (cs : List Candidate) : List ScopeEntry :=
  cs.zipIdx.filterMap fun p =>
    if (cs.take p.2).any fun c => c.element == p.1.element && c.isNameable m then none
    else m.entry? p.1

theorem candidates_eq_listed (m : Model) (v : Viewpoint) (d : ElementId) :
    m.candidates v d = m.listed v d (m.scopeAncestors v d) := by
  simp [candidates, listed]

theorem unhiddenEntries_eq (m : Model) (v : Viewpoint) (d : ElementId) :
    m.unhiddenEntries v d = m.firstEntries (m.candidates v d) := by
  rw [unhiddenEntries, distinctBy_filterMap element_of_entry]
  simp only [isSome_entry]
  rfl

theorem mem_elements_unhiddenEntries_iff :
    t ∈ (m.unhiddenEntries v d).map (·.element) ↔
      ∃ c ∈ m.candidates v d, c.isNameable m ∧ c.element = t := by
  rw [unhiddenEntries, mem_map_distinctBy, List.mem_map]
  constructor
  · rintro ⟨e, he, rfl⟩
    obtain ⟨c, hc, hce⟩ := List.mem_filterMap.1 he
    exact ⟨c, hc, by rw [← isSome_entry, hce]; rfl, (element_of_entry hce).symm⟩
  · rintro ⟨c, hc, hname, rfl⟩
    rw [← isSome_entry] at hname
    obtain ⟨e, hce⟩ := Option.isSome_iff_exists.1 hname
    exact ⟨e, List.mem_filterMap.2 ⟨c, hc, hce⟩, element_of_entry hce⟩

private theorem exists_first_of_mem_firstEntries {cs : List Candidate} (he : e ∈ m.firstEntries cs) :
    ∃ before c after, cs = before ++ c :: after ∧ m.entry? c = some e ∧
      ∀ b ∈ before, b.element = c.element → ¬ b.isNameable m := by
  obtain ⟨⟨c, i⟩, hc, hce⟩ := List.mem_filterMap.1 he
  have hget : cs[i]? = some c := List.mem_zipIdx_iff_getElem?.1 hc
  obtain ⟨hi, rfl⟩ := List.getElem?_eq_some_iff.1 hget
  rw [Option.ite_none_left_eq_some] at hce
  obtain ⟨hfirst, hce⟩ := hce
  refine ⟨cs.take i, cs[i], cs.drop (i + 1), ?_, hce, ?_⟩
  · rw [List.getElem_cons_drop, List.take_append_drop]
  · intro b hb hbe hname
    exact hfirst (List.any_eq_true.2 ⟨b, hb, by simp [hbe, hname]⟩)

/-- A supertype is found when a type is looked at. -/
theorem mem_scopeAncestors_iff (h : Coherent m) :
    t ∈ (m.scopeAncestors v d).map (·.element) ↔ m.isType d ∧ t ≠ d ∧ m.Inherits v d t := by
  obtain ⟨after, hexplores⟩ := explores_ancestors (v := v) h d
  rw [scopeAncestors]
  by_cases hd : m.isType d
  · rw [if_pos hd, hexplores.mem_iff_inherits]
    exact (and_iff_right hd).symm
  · simp [hd]

theorem scopeAncestors_nodup (h : Coherent m) (v : Viewpoint) (d : ElementId) :
    ((m.scopeAncestors v d).map (·.element)).Nodup := by
  obtain ⟨after, hexplores⟩ := explores_ancestors (v := v) h d
  rw [scopeAncestors]
  split
  · exact hexplores.fresh_nodup.2
  · exact List.nodup_nil

/-- The supertypes that count for a scope are found by depth-first exploration, all that a type
inherits from once each. The entries before redefinitions are those of the first candidates with a
name, and redefinitions only take entries out. -/
theorem scope_entries (h : m.Reachable) (v : Viewpoint) (hd : m.contains d) :
    ∃ found : List Ancestor,
      (if m.isType d then ∃ after, Explores m v [d] (m.followed v true d) found after
        else found = []) ∧
      (found.map (·.element)).Nodup ∧
      (∀ t, t ∈ found.map (·.element) ↔ m.isType d ∧ t ≠ d ∧ m.Inherits v d t) ∧
      m.unhiddenEntries v d = m.firstEntries (m.listed v d found) ∧
      ((m.unhiddenEntries v d).map (·.element)).Nodup ∧
      (∀ t, t ∈ (m.unhiddenEntries v d).map (·.element) ↔
        ∃ c ∈ m.listed v d found, c.isNameable m ∧ c.element = t) ∧
      (∀ e ∈ m.unhiddenEntries v d, ∃ before c after, m.listed v d found = before ++ c :: after ∧
        c.isNameable m ∧ (∀ b ∈ before, b.element = c.element → ¬ b.isNameable m) ∧
        e.element = c.element ∧ e.origin = c.origin) ∧
      (m.scope v d).entries = (m.unhiddenEntries v d).filter fun e =>
        !(groups (m.redefinitions v d)).any fun g => g.isUnique && g.redefined == e.element := by
  have hcoherent : Coherent m := h.coherent
  have heq := unhiddenEntries_eq m v d
  have hlisted := candidates_eq_listed m v d
  refine ⟨m.scopeAncestors v d, ?_, scopeAncestors_nodup hcoherent v d,
    fun t => mem_scopeAncestors_iff hcoherent, ?_, nodup_map_distinctBy _, fun t => ?_, ?_, ?_⟩
  · rw [scopeAncestors]
    split
    · exact explores_ancestors hcoherent d
    · rfl
  · rw [heq, hlisted]
  · rw [← hlisted]
    exact mem_elements_unhiddenEntries_iff
  · intro e he
    rw [heq, hlisted] at he
    obtain ⟨before, c, after, hsplit, hce, hfirst⟩ := exists_first_of_mem_firstEntries he
    refine ⟨before, c, after, hsplit, ?_, hfirst, element_of_entry hce, origin_of_entry hce⟩
    rw [← isSome_entry, hce]
    rfl
  · rw [scope, if_pos hd]
    refine List.filter_congr fun e _ => congrArg _ ?_
    rw [Bool.eq_iff_iff]
    simp [and_assoc]

/-- Three classes that specialize each other around, the first one privately. -/
def inheritanceCycle : Model :=
  performAll { library := .empty }
    [.addRoot { metaclass := .klass, name := some "A" },
      .addRoot { metaclass := .klass, name := some "B" },
      .addRoot { metaclass := .klass, name := some "C" },
      .add ⟨1⟩ { metaclass := .feature, name := some "x" },
      .add ⟨2⟩ { metaclass := .feature, name := some "y", visibility := .priv },
      .request ⟨0⟩ { target := .path ["B"], kind := .subclassification, visibility := .priv },
      .request ⟨1⟩ { target := .path ["C"], kind := .subclassification },
      .request ⟨2⟩ { target := .path ["A"], kind := .subclassification },
      .link]

theorem scope_entries_inheritanceCycle :
    inheritanceCycle.Reachable ∧ inheritanceCycle.contains ⟨0⟩ ∧
    (∃ found : List Ancestor, (found.map (·.element)).Nodup ∧
      (∀ t, t ∈ found.map (·.element) ↔ inheritanceCycle.isType ⟨0⟩ ∧ t ≠ ⟨0⟩ ∧
        inheritanceCycle.Inherits .inside ⟨0⟩ t) ∧
      inheritanceCycle.unhiddenEntries .inside ⟨0⟩ =
        inheritanceCycle.firstEntries (inheritanceCycle.listed .inside ⟨0⟩ found)) ∧
    (inheritanceCycle.scope .inside ⟨0⟩).elements = [⟨0⟩, ⟨1⟩, ⟨3⟩, ⟨2⟩] := by
  have hreachable : inheritanceCycle.Reachable := (Reachable.empty .empty).performAll _
  have hknown : inheritanceCycle.contains ⟨0⟩ := by decide +kernel
  obtain ⟨found, -, hnodup, hmem, hentries, -⟩ := scope_entries hreachable .inside hknown
  exact ⟨hreachable, hknown, ⟨found, hnodup, hmem, hentries⟩, by cbv⟩

end Model
end Kerml
