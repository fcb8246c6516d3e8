import Kerml.Proofs.Import.Exclusive
import Kerml.Proofs.Scope.Lookup
import Kerml.Proofs.Scope.Viewpoint

/-!
# New names that imports give

A declaration is visible once, under the names that its first candidate with a name answers to. A
new name is therefore visible only where nothing else brings the declaration in before.
-/
namespace Kerml

private theorem Scope.mem_lookup_iff {s : Scope} {name : String} {e : ScopeEntry} :
    e ∈ s.lookup name ↔ e ∈ s.entries ∧ (e.name = name ∨ e.shortName = some name) := by
  simp [lookup]

namespace Model

variable {m : Model} {v : Viewpoint} {d t : ElementId} {c : Candidate} {e : ScopeEntry}
  {name a : String} {i : Import} {earlier later : List Import}

def firstFor? (m : Model) (t : ElementId) (cs : List Candidate) : Option Candidate :=
  cs.find? fun c => c.element == t && c.isNameable m

/-- What comes into a scope before the share of a directive, given the directives before it: the own
members that are seen, and what those directives bring in. -/
def candidatesBefore (m : Model) (v : Viewpoint) (d : ElementId) (earlier : List Import) :
    List Candidate :=
  (m.membersFor d v.ownAudience).map ({ element := ·, origin := .own }) ++
  ((m.withImports d earlier).imported d).map fun i =>
    { element := i.element, newName := i.newName, origin := .imported }

private theorem find?_unhiddenEntries (m : Model) (v : Viewpoint) (d t : ElementId) :
    (m.unhiddenEntries v d).find? (·.element == t) =
      (m.firstFor? t (m.candidates v d)).bind m.entry? := by
  rw [unhiddenEntries, find?_distinctBy, List.find?_filterMap, firstFor?]
  congr 2
  funext c
  rw [← isSome_entry]
  cases he : m.entry? c with
  | none => simp
  | some e => simp [element_of_entry he]

/-- Before redefinitions, a declaration has the entry of its first candidate and no other one. -/
theorem exists_entry_of_firstFor? (hfirst : m.firstFor? t (m.candidates v d) = some c) :
    ∃ e ∈ m.unhiddenEntries v d, m.entry? c = some e ∧
      ∀ x ∈ m.unhiddenEntries v d, x.element = t ↔ x = e := by
  have hc : c.element = t ∧ c.isNameable m := by
    simpa using List.find?_some hfirst
  obtain ⟨e, he⟩ := Option.isSome_iff_exists.1 ((isSome_entry m c).trans hc.2)
  have hfind : (m.unhiddenEntries v d).find? (·.element == t) = some e := by
    rw [find?_unhiddenEntries, hfirst, Option.bind_some, he]
  have hmem := List.mem_of_find?_eq_some hfind
  have het : e.element = t := (element_of_entry he).trans hc.1
  refine ⟨e, hmem, he, fun x hx => ⟨fun hxt => ?_, fun hxe => hxe ▸ het⟩⟩
  exact List.inj_on_of_nodup_map (nodup_map_distinctBy _) hx hmem (hxt.trans het.symm)

theorem mem_elements_iff_of_firstFor? (h : Coherent m) (hd : m.contains d)
    (hfirst : m.firstFor? t (m.candidates v d) = some c) :
    t ∈ (m.scope v d).elements ↔ ∀ k, (m.redefinersAt v d k t).length ≠ 1 := by
  obtain ⟨e, hmem, -, honly⟩ := exists_entry_of_firstFor? hfirst
  rw [mem_elements_scope_iff h hd, and_iff_right (List.mem_map.2 ⟨e, hmem, (honly e hmem).2 rfl⟩)]

/-- A visible declaration is visible under the names that its first candidate answers to. -/
theorem exists_mem_lookup_iff (h : Coherent m) (hd : m.contains d)
    (hfirst : m.firstFor? t (m.candidates v d) = some c) :
    (∃ e ∈ (m.scope v d).lookup name, e.element = t) ↔
      t ∈ (m.scope v d).elements ∧ c.answersTo m name := by
  obtain ⟨e, hmem, he, honly⟩ := exists_entry_of_firstFor? hfirst
  have het : e.element = t := (honly e hmem).2 rfl
  rw [mem_elements_iff_of_firstFor? h hd hfirst]
  simp only [Scope.mem_lookup_iff, mem_entries_scope_iff h hd]
  constructor
  · rintro ⟨x, ⟨⟨hx, hkept⟩, hname⟩, hxt⟩
    obtain rfl := (honly x hx).1 hxt
    exact ⟨hxt ▸ hkept, (answersTo_entry_iff he).1 hname⟩
  · rintro ⟨hkept, hname⟩
    exact ⟨e, ⟨⟨hmem, het ▸ hkept⟩, (answersTo_entry_iff he).2 hname⟩, het⟩

private theorem directiveSteps_specific (hshape : i.shape = .specific)
    (ht : m.importTarget? d i = some t) :
    m.directiveSteps d i = [.bring { element := t, newName := i.newName }] := by
  simp only [directiveSteps, ht, targetSteps, hshape]

private theorem exists_imported_eq (himports : m.imports d = earlier ++ i :: later)
    (hshape : i.shape = .specific) (ht : m.importTarget? d i = some t) :
    ∃ rest, m.imported d = (m.withImports d earlier).imported d ++
      { element := t, newName := i.newName } :: rest := by
  have hd : m.contains d := Forest.contains_of_imports_ne_nil (by simp [himports])
  obtain ⟨reached, -, hearlier⟩ :=
    exists_runSteps_append m [d] (earlier.flatMap (m.directiveSteps d))
  refine ⟨m.runSteps reached (later.flatMap (m.directiveSteps d)), ?_⟩
  rw [imported_withImports hd, imported, ownSteps, himports, List.flatMap_append,
    List.flatMap_cons, directiveSteps_specific hshape ht, hearlier, List.singleton_append, runSteps]

private theorem exists_candidates_eq (himports : m.imports d = earlier ++ i :: later)
    (hshape : i.shape = .specific) (ht : m.importTarget? d i = some t) (v : Viewpoint) :
    ∃ rest, m.candidates v d = m.candidatesBefore v d earlier ++
      { element := t, newName := i.newName, origin := .imported } :: rest := by
  obtain ⟨more, hmore⟩ := exists_imported_eq himports hshape ht
  rw [candidates, candidatesBefore, hmore, List.map_append, List.map_cons]
  simp only [List.append_assoc, List.cons_append]
  exact ⟨_, rfl⟩

/-- The target of a directive that gives a new name has a first candidate, which answers to the new
name unless there is one before the directive that does not. -/
theorem exists_firstFor? (himports : m.imports d = earlier ++ i :: later)
    (hshape : i.shape = .specific) (hname : i.newName = some a)
    (ht : m.importTarget? d i = some t) (v : Viewpoint) :
    ∃ c, m.firstFor? t (m.candidates v d) = some c ∧
      (c.answersTo m a ↔
        ∀ b, m.firstFor? t (m.candidatesBefore v d earlier) = some b → b.answersTo m a) := by
  obtain ⟨rest, hsplit⟩ := exists_candidates_eq himports hshape ht v
  have hfirst : m.firstFor? t (m.candidates v d) =
      (m.firstFor? t (m.candidatesBefore v d earlier)).or
        (some { element := t, newName := some a, origin := .imported }) := by
    rw [hsplit, hname, firstFor?, List.find?_append, List.find?_cons_of_pos]
    · rfl
    · simp [Candidate.isNameable]
  rw [hfirst]
  cases m.firstFor? t (m.candidatesBefore v d earlier) with
  | none => exact ⟨_, rfl, by simp [Candidate.answersTo]⟩
  | some b => exact ⟨b, rfl, by simp⟩

/-- A directive that gives its target a new name makes it visible, unless a single declaration
redefines it at some distance. It is visible under the new name if and only if nothing comes before
that has a name for the target, or the first that does answers to the new name. -/
theorem lookup_newName_iff (h : m.Reachable) (himports : m.imports d = earlier ++ i :: later)
    (hshape : i.shape = .specific) (hname : i.newName = some a)
    (ht : m.importTarget? d i = some t) (v : Viewpoint) :
    (t ∈ (m.scope v d).elements ↔ ∀ k, (m.redefinersAt v d k t).length ≠ 1) ∧
    ((∃ e ∈ (m.scope v d).lookup a, e.element = t) ↔
      t ∈ (m.scope v d).elements ∧
        ∀ b, m.firstFor? t (m.candidatesBefore v d earlier) = some b → b.answersTo m a) ∧
    (t ∈ (m.scope v d).elements →
      (∀ b ∈ m.candidatesBefore v d earlier, b.element = t → b.isNameable m → b.answersTo m a) →
      ∃ e ∈ (m.scope v d).lookup a, e.element = t) := by
  have hcoherent : Coherent m := h.coherent
  have hd : m.contains d := Forest.contains_of_imports_ne_nil (by simp [himports])
  obtain ⟨c, hfirst, hanswers⟩ := exists_firstFor? himports hshape hname ht v
  rw [exists_mem_lookup_iff hcoherent hd hfirst, hanswers]
  refine ⟨mem_elements_iff_of_firstFor? hcoherent hd hfirst, Iff.rfl,
    fun hvisible hbefore => ⟨hvisible, fun b hb => ?_⟩⟩
  have hnamed : b.element = t ∧ b.isNameable m := by
    simpa using List.find?_some hb
  exact hbefore b (List.mem_of_find?_eq_some hb) hnamed.1 hnamed.2

/-- A package that imports a class of another package twice, under two new names. -/
def renamedTwice : Model :=
  performAll { library := .empty }
    [.addRoot { metaclass := .package, name := some "L" },
      .add ⟨0⟩ { metaclass := .klass, name := some "T" },
      .addRoot { metaclass := .package, name := some "N" },
      .addImport ⟨2⟩ { path := ["L", "T"], newName := some "S" },
      .addImport ⟨2⟩ { path := ["L", "T"], newName := some "R" },
      .link]

theorem lookup_newName_iff_renamedTwice :
    renamedTwice.Reachable ∧
    renamedTwice.imports ⟨2⟩ = [{ path := ["L", "T"], newName := some "S" },
      { path := ["L", "T"], newName := some "R" }] ∧
    (∃ e ∈ (renamedTwice.scope .inside ⟨2⟩).lookup "S", e.element = ⟨1⟩) ∧
    ¬ ∃ e ∈ (renamedTwice.scope .inside ⟨2⟩).lookup "R", e.element = ⟨1⟩ := by
  have hreachable : renamedTwice.Reachable := (Reachable.empty _).performAll _
  have himports : renamedTwice.imports ⟨2⟩ = [{ path := ["L", "T"], newName := some "S" },
      { path := ["L", "T"], newName := some "R" }] := by cbv
  have hvisible : ⟨1⟩ ∈ (renamedTwice.scope .inside ⟨2⟩).elements := by
    have helements : (renamedTwice.scope .inside ⟨2⟩).elements = [⟨1⟩] := by cbv
    rw [helements]
    decide
  have hfirst : renamedTwice.firstFor? ⟨1⟩ (renamedTwice.candidatesBefore .inside ⟨2⟩ []) =
      none := by cbv
  have hsecond : renamedTwice.firstFor? ⟨1⟩ (renamedTwice.candidatesBefore .inside ⟨2⟩
      [{ path := ["L", "T"], newName := some "S" }]) =
        some { element := ⟨1⟩, newName := some "S", origin := .imported } := by cbv
  have hnone : renamedTwice.imports ⟨2⟩ = [] ++ { path := ["L", "T"], newName := some "S" } ::
      [{ path := ["L", "T"], newName := some "R" }] := himports
  have hone : renamedTwice.imports ⟨2⟩ = [{ path := ["L", "T"], newName := some "S" }] ++
      { path := ["L", "T"], newName := some "R" } :: [] := himports
  obtain ⟨-, hname, -⟩ := lookup_newName_iff hreachable hnone rfl rfl (by cbv) .inside
  obtain ⟨-, hother, -⟩ := lookup_newName_iff hreachable hone rfl rfl (by cbv) .inside
  refine ⟨hreachable, himports, hname.2 ⟨hvisible, fun b hb => ?_⟩, fun hr => ?_⟩
  · rw [hfirst] at hb
    cases hb
  · have hwrong := (hother.1 hr).2 _ hsecond
    revert hwrong
    decide

/-- The second new name stands for nothing, although its directive leads to the class and nothing
redefines that. -/
theorem renamedTwice_loses_second :
    renamedTwice.Reachable ∧
    renamedTwice.imports ⟨2⟩ = [{ path := ["L", "T"], newName := some "S" },
      { path := ["L", "T"], newName := some "R" }] ∧
    renamedTwice.importTarget? ⟨2⟩ { path := ["L", "T"], newName := some "R" } = some ⟨1⟩ ∧
    (∀ v k, renamedTwice.redefinersAt v ⟨2⟩ k ⟨1⟩ = []) ∧
    ∀ v, (renamedTwice.scope v ⟨2⟩).lookup "R" = [] := by
  have hreachable : renamedTwice.Reachable := (Reachable.empty _).performAll _
  have hnone : ∀ v, renamedTwice.redefinitions v ⟨2⟩ = [] := fun v => by cases v <;> cbv
  have hlookup : ∀ v, (renamedTwice.scope v ⟨2⟩).lookup "R" = [] := fun v => by cases v <;> cbv
  refine ⟨hreachable, by cbv, by cbv, fun v k => ?_, hlookup⟩
  rw [← distinct_selected hreachable.coherent, hnone]
  rfl

end Model
end Kerml
