import Kerml.Proofs.Guarded.Link
import Kerml.Proofs.Guarded.Resolution
import Kerml.Proofs.Link.Content

/-!
# Handles that lead nowhere

Commands that are given unknown handles are refused, so that a model never holds one, and nothing
that linking, checking or a query comes across is unknown.
-/
namespace Kerml

/-- A problem concerns one declaration and refers to no other one. -/
def Diagnostic.OnlyAbout (x : Diagnostic) (d : ElementId) : Prop :=
  x.element = d ∧ x.related = []

namespace Model

variable {m n : Model} {d : ElementId} {x : Diagnostic}

theorem onlyAbout_of_unbound? {r : Request} (hx : m.unbound? d r = some x) : x.OnlyAbout d := by
  rw [unbound?, Option.ite_none_right_eq_some] at hx
  cases hx.2
  exact ⟨rfl, rfl⟩

theorem onlyAbout_of_missing? {r : SupertypeRole} (hx : m.missing? d r = some x) :
    x.OnlyAbout d := by
  obtain ⟨path, -, hx⟩ := Option.bind_eq_some_iff.1 hx
  rw [Option.ite_none_right_eq_some] at hx
  cases hx.2
  exact ⟨rfl, rfl⟩

theorem onlyAbout_of_importDiagnostic? {i : Import} (hx : m.importDiagnostic? d i = some x) :
    x.OnlyAbout d := by
  obtain ⟨p, hp, rfl⟩ := Option.map_eq_some_iff.1 hx
  rw [importProblem?] at hp
  split at hp <;> cases hp <;> exact ⟨rfl, rfl⟩

def ReportsKnown (m : Model) : Prop :=
  ∀ x ∈ m.report.diagnostics, m.contains x.element ∧ ∀ note ∈ x.related, m.contains note.element

namespace ReportsKnown

theorem of_grows (h : m.ReportsKnown) (hforest : m.Grows n.toForest) (hreport : n.report = m.report) :
    n.ReportsKnown := by
  intro x hx
  rw [hreport] at hx
  exact ⟨hforest.contains (h x hx).1, fun note hnote => hforest.contains ((h x hx).2 note hnote)⟩

theorem of_sameEdges (h : m.ReportsKnown) (hn : SameEdges m n) : n.ReportsKnown :=
  h.of_grows (hn.forest ▸ ⟨id, id⟩) hn.report

/-- Reports that concern known declarations may be added. -/
theorem add (h : m.ReportsKnown) (hforest : n.toForest = m.toForest)
    (hreport : ∀ x ∈ n.report.diagnostics, x ∈ m.report.diagnostics ∨
      ∃ d, m.contains d ∧ x.OnlyAbout d) : n.ReportsKnown := by
  intro x hx
  rw [hforest]
  rcases hreport x hx with hold | ⟨d, hd, rfl, hrelated⟩
  · exact h x hold
  · rw [hrelated]
    exact ⟨hd, fun note hnote => absurd hnote List.not_mem_nil⟩

theorem link (h : m.WellFormed) : m.link.ReportsKnown := by
  have hempty : m.unlinked.ReportsKnown := fun x hx => absurd hx List.not_mem_nil
  refine hempty.add (link_forest m) fun x hx => Or.inr ?_
  have hknown : ∀ d ∈ m.preorder, m.contains d := fun d => h.mem_preorder_iff.1
  rw [link_report h, complete_report h, List.mem_append, List.mem_append] at hx
  rcases hx with (hx | hx) | hx
  · obtain ⟨d, hd, hx⟩ := List.mem_flatMap.1 hx
    obtain ⟨r, -, hx⟩ := List.mem_filterMap.1 hx
    exact ⟨d, hknown d hd, onlyAbout_of_unbound? hx⟩
  · obtain ⟨d, hd, hx⟩ := List.mem_flatMap.1 hx
    split at hx
    · obtain ⟨r, -, hx⟩ := List.mem_filterMap.1 hx
      exact ⟨d, hknown d hd, onlyAbout_of_missing? hx⟩
    · cases hx
  · obtain ⟨d, hd, hx⟩ := List.mem_flatMap.1 hx
    obtain ⟨i, -, hx⟩ := List.mem_filterMap.1 hx
    exact ⟨d, hknown d hd, onlyAbout_of_importDiagnostic? hx⟩

theorem cleared (h : m.ReportsKnown) (d : ElementId) : (m.cleared d).ReportsKnown :=
  h.add rfl fun _ hx => Or.inl (List.mem_filter.1 hx).1

theorem rederived (h : m.ReportsKnown) (hd : m.contains d) : (m.rederived d).ReportsKnown := by
  refine h.add (rederived_forest m d) fun x hx => ?_
  rw [rederived_report, List.mem_append, List.mem_append, List.mem_append] at hx
  rcases hx with hold | hx | hx | hx
  · exact Or.inl hold
  · obtain ⟨r, -, hx⟩ := List.mem_filterMap.1 hx
    exact Or.inr ⟨d, hd, onlyAbout_of_unbound? hx⟩
  · split at hx
    · obtain ⟨r, -, hx⟩ := List.mem_filterMap.1 hx
      exact Or.inr ⟨d, hd, onlyAbout_of_missing? hx⟩
    · cases hx
  · obtain ⟨i, -, hx⟩ := List.mem_filterMap.1 hx
    exact Or.inr ⟨d, hd, onlyAbout_of_importDiagnostic? hx⟩

theorem perform (h : m.ReportsKnown) (hm : m.WellFormed) {c : Command}
    (hc : m.perform c = .ok n) : n.ReportsKnown := by
  cases c with
  | addRoot declaration =>
    cases hc
    exact h.of_grows (Forest.grows_addRoot declaration) rfl
  | add owner declaration =>
    obtain ⟨p, hp, rfl⟩ := exists_of_map_eq_ok hc
    obtain ⟨f, hf, rfl⟩ := exists_of_map_eq_ok hp
    exact h.of_grows (Forest.grows_add hf) rfl
  | request d r =>
    obtain ⟨f, hf, rfl⟩ := exists_of_map_eq_ok hc
    exact h.of_grows (Forest.grows_request hf) rfl
  | clearRequests d =>
    obtain ⟨f, hf, rfl⟩ := exists_of_map_eq_ok hc
    exact h.of_grows (Forest.grows_clearRequests hf) rfl
  | addImport d i =>
    obtain ⟨f, hf, rfl⟩ := exists_of_map_eq_ok hc
    exact h.of_grows (Forest.grows_addImport hf) rfl
  | setName d name =>
    obtain ⟨f, hf, rfl⟩ := exists_of_map_eq_ok hc
    exact h.of_grows (Forest.grows_setName hf) rfl
  | link =>
    cases hc
    exact link hm
  | reset d =>
    obtain ⟨-, rfl⟩ := reset_eq_ok_iff.1 hc
    exact h.cleared d
  | relink d =>
    obtain ⟨hd, rfl⟩ := relink_eq_ok_iff.1 hc
    exact h.rederived hd

end ReportsKnown

private theorem Reachable.reportsKnown (h : m.Reachable) : m.ReportsKnown := by
  induction h with
  | empty library => exact fun x hx => absurd hx List.not_mem_nil
  | perform h c hc ih => exact ih.perform h.coherent.forest hc
  | ask _ q ih => exact ih.of_sameEdges (ask_sameEdges _ q)

/-- Every handle that a model holds is that of a declaration. -/
structure HoldsKnown (m : Model) : Prop where
  root : ∀ d ∈ m.roots, m.contains d
  owner : ∀ {d o}, m.owner d = some o → m.contains o
  member : ∀ {d c}, c ∈ m.members d → m.contains c
  relatedEnd : ∀ {d c}, c ∈ m.ends d → m.contains c
  target : ∀ {d r t}, r ∈ m.requests d → r.target = .element t → m.contains t
  general : ∀ {d s}, s ∈ m.specializations.get d → m.contains s.general
  reported : m.ReportsKnown

/-- There is nothing to read under unknown handles, and yet what is read about a whole model and what
is derived for it is the same where they are given up on. A declaration that is to be reset or derived
anew need not be known. -/
structure ReadsKnown (m : Model) : Prop where
  facts : ∀ d, m.facts? d = if m.contains d then some (m.facts d) else none
  preorder : Guarded.preorder m = some m.preorder
  globals : Guarded.globals m = some m.globals
  lookup : ∀ path, Guarded.lookup m none path = some (m.lookup none path)
  find : ∀ text, Guarded.find m text = some ( m.find? text)
  resolveGlobal : ∀ name, Guarded.resolveGlobal m name = some (m.resolveGlobal name)
  link : Guarded.link m = some m.link
  check : Guarded.check m = some m.check
  checkSome : ∀ wholeModel ds, (∀ d ∈ ds, m.contains d) →
    (m.checkSome? wholeModel ds).isSome ∧
      Guarded.checkSome m wholeModel ds = m.checkSome? wholeModel ds
  reset : ∀ d, Guarded.reset m d = some (m.reset d)
  relink : ∀ d, Guarded.relink m d = some (m.relink d)

/-- What is read at a declaration is the same where unknown handles are given up on. -/
structure ReadsKnownAt (m : Model) (d : ElementId) : Prop where
  encloses : ∀ o, Guarded.encloses m o d = some (m.encloses o d)
  membersFor : ∀ a, Guarded.membersFor m d a = some (m.membersFor d a)
  answersTo : ∀ name, Guarded.answersTo m d name = some (m.answersTo d name)
  name : Guarded.askName m d = some (m.qualifiedName d, m.rememberName d)
  categories : Guarded.askCategories m d = some (m.askCategories d)
  lookup : ∀ path, Guarded.lookup m (some d) path = some (m.lookup (some d) path)
  imported : Guarded.imported m d = some (m.imported d)
  scope : ∀ v, Guarded.scope m v d = some (m.scope v d)
  resolveSimple : ∀ name, Guarded.resolveSimple m d name = some (m.resolveSimple d name)
  resolve : ∀ text, Guarded.resolve m d text = some (m.resolve d text)
  problems : Guarded.scopeProblems m d = some (m.scopeProblems d)

private theorem Coherent.readsKnown (h : Coherent m) : m.ReadsKnown where
  facts d := by
    split
    · exact facts?_eq ‹_›
    · exact facts?_eq_none ‹_›
  preorder := Guarded.preorder_eq h.forest
  globals := Guarded.globals_eq h.forest
  lookup := Guarded.lookup_eq h.forest rfl
  find := Guarded.find_eq h.forest
  resolveGlobal := Guarded.resolveGlobal_eq h.forest
  link := Guarded.link_eq h
  check := Guarded.check_eq h
  checkSome wholeModel _ := Guarded.checkSome_eq h wholeModel
  reset := Guarded.reset_eq h.forest
  relink := Guarded.relink_eq h

private theorem Coherent.readsKnownAt (h : Coherent m) (hd : m.contains d) : m.ReadsKnownAt d where
  encloses := Guarded.encloses_eq h.forest hd
  membersFor := Guarded.membersFor_eq h.forest hd
  answersTo := Guarded.answersTo_eq hd
  name := Guarded.askName_eq h.forest hd
  categories := Guarded.askCategories_eq h hd
  lookup := Guarded.lookup_eq h.forest hd
  imported := Guarded.imported_eq h.forest hd
  scope v := Guarded.scope_eq h v d
  resolveSimple := Guarded.resolveSimple_eq h hd
  resolve := Guarded.resolve_eq h hd
  problems := Guarded.scopeProblems_eq h hd

private theorem Reachable.holdsKnown (h : m.Reachable) : m.HoldsKnown where
  root _ hd := (h.coherent.forest.mem_roots_iff.1 hd).1
  owner := h.coherent.forest.contains_owner
  member := h.coherent.forest.contains_member
  relatedEnd {d c} hc := by
    rw [h.endsListed d] at hc
    split at hc
    · exact h.coherent.forest.contains_member (List.mem_filter.1 hc).1
    · cases hc
  target := h.coherent.forest.contains_target
  general := h.coherent.contains_general
  reported := h.reportsKnown

/-- However a model has come about, every handle in it is that of a declaration. Therefore linking and
checking, resetting and relinking, and the queries at known declarations never read under an unknown
handle. -/
theorem handles_known (h : m.Reachable) :
    m.HoldsKnown ∧ m.ReadsKnown ∧ ∀ d, m.contains d → m.ReadsKnownAt d :=
  ⟨h.holdsKnown, h.coherent.readsKnown, fun _ => h.coherent.readsKnownAt⟩

/-- Two classes in a package, of which one asks to specialize the other. The library has a supertype for
the other one that is not there. What else is asked for is refused, since an owner, a supertype, a
declaration to specialize and one to derive anew are unknown. -/
def strayHandles : Model :=
  performAll { library := SupertypeTable.empty.insert .klass .base "T" }
    [.addRoot { metaclass := .package, name := some "P" },
      .add ⟨7⟩ { metaclass := .klass, name := some "X" },
      .add ⟨0⟩ { metaclass := .klass, name := some "A" },
      .add ⟨0⟩ { metaclass := .klass, name := some "B" },
      .request ⟨2⟩ { target := .element ⟨9⟩, kind := .subclassification },
      .request ⟨9⟩ { target := .element ⟨1⟩, kind := .subclassification },
      .request ⟨2⟩ { target := .element ⟨1⟩, kind := .subclassification },
      .link,
      .relink ⟨5⟩]

theorem handles_known_strayHandles :
    strayHandles.Reachable ∧ strayHandles.size = 3 ∧
    strayHandles.specializations.get ⟨2⟩ = [{ general := ⟨1⟩, kind := .subclassification }] ∧
    strayHandles.report.diagnostics.map (·.element) = [⟨1⟩] ∧
    (strayHandles.HoldsKnown ∧ strayHandles.ReadsKnown ∧
      ∀ d, strayHandles.contains d → strayHandles.ReadsKnownAt d) := by
  have hreachable : strayHandles.Reachable := (Reachable.empty _).performAll _
  exact ⟨hreachable, by decide +kernel, by decide +kernel, by decide +kernel,
    handles_known hreachable⟩

/-- Unknown handles would be met, be it a root or what a specialization leads to. -/
example : (Guarded.link { roots := [⟨0⟩], library := .empty }).isNone ∧
    (Guarded.scope
      { strayHandles with
        specializations := strayHandles.specializations.put ⟨2⟩
          [{ general := ⟨9⟩, kind := .subclassification }] } .inside ⟨2⟩).isNone := by
  decide +kernel

end Model
end Kerml
