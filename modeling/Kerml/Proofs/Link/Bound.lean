import Kerml.Proofs.Link.Content
import Kerml.Proofs.Link.Names
import Kerml.Proofs.Lookup.Untaken

/-!
# What becomes of the requests of a declaration

They are bound before any names are taken, so that a path through a feature that takes its name
can be followed only later.
-/
namespace Kerml

namespace Problem

/-- Texts that differ at an early place differ however they go on. -/
theorem append_ne_append {a b : String} (i : Nat) (ha : i < a.toList.length)
    (hb : i < b.toList.length) (hab : a.toList[i]? ≠ b.toList[i]?) (s t : String) :
    a ++ s ≠ b ++ t := by
  intro h
  have hchar : (a ++ s).toList[i]? = (b ++ t).toList[i]? := by rw [h]
  rw [String.toList_append, String.toList_append, List.getElem?_append_left ha,
    List.getElem?_append_left hb] at hchar
  exact hab hchar

private theorem message_undefinedReference_ne (path directive : String) :
    (undefinedReference path).message ≠ (unresolvedImport directive).message := by
  change "undefined reference: '" ++ path ++ "'" ≠ "unresolved import: '" ++ directive ++ "'"
  rw [String.append_assoc, String.append_assoc]
  exact append_ne_append 2 (by decide) (by decide) (by decide) _ _

end Problem

def Diagnostic.IsUndefined (x : Diagnostic) : Prop :=
  ∃ path d span, x = (Problem.undefinedReference path).diagnostic d span

namespace Model

variable {m : Model} {d : ElementId}

theorem filter_flatMap_about {ds : List ElementId} {problems : ElementId → List Diagnostic}
    (habout : ∀ e, ∀ x ∈ problems e, x.element = e) (hn : ds.Nodup) (hd : d ∈ ds) :
    (ds.flatMap problems).filter (·.element == d) = problems d := by
  have hself : (problems d).filter (·.element == d) = problems d :=
    List.filter_eq_self.2 fun x hx => by simp [habout d x hx]
  have hother : ∀ es : List ElementId, d ∉ es →
      (es.flatMap problems).filter (·.element == d) = [] := by
    intro es hes
    refine List.filter_eq_nil_iff.2 fun x hx => ?_
    obtain ⟨e, he, hx⟩ := List.mem_flatMap.1 hx
    have hne : e ≠ d := fun h => hes (h ▸ he)
    simp [habout e x hx, hne]
  obtain ⟨before, after, rfl⟩ := List.append_of_mem hd
  have hnotin := List.nodup_middle.1 hn
  rw [List.nodup_cons, List.mem_append, not_or] at hnotin
  rw [List.flatMap_append, List.flatMap_cons, List.filter_append, List.filter_append,
    hother before hnotin.1.1, hother after hnotin.1.2, hself, List.nil_append, List.append_nil]

theorem element_of_unbound? {x : Diagnostic} {r : Request} (hx : m.unbound? d r = some x) :
    x.element = d := by
  rw [unbound?] at hx
  split at hx
  · cases hx
    rfl
  · cases hx

theorem element_of_missing? {x : Diagnostic} {r : SupertypeRole} (hx : m.missing? d r = some x) :
    x.element = d := by
  obtain ⟨p, -, hx⟩ := Option.bind_eq_some_iff.1 hx
  split at hx
  · cases hx
    rfl
  · cases hx

theorem element_of_importDiagnostic? {x : Diagnostic} {i : Import}
    (hx : m.importDiagnostic? d i = some x) : x.element = d := by
  obtain ⟨p, -, rfl⟩ := Option.map_eq_some_iff.1 hx
  rfl

/-- The problems of a type: its requests that are not bound, its roles that the library leads nowhere
and its imports that do not lead to their targets. -/
theorem about_link (h : m.WellFormed) (hd : m.contains d) : m.link.report.about d =
    (m.requests d).filterMap (m.unlinked.unbound? d) ++
    ((if m.isType d then (m.roles d).filterMap (m.link.missing? d) else []) ++
      (m.imports d).filterMap (m.link.importDiagnostic? d)) := by
  have hmem : d ∈ m.preorder := h.mem_preorder_iff.2 hd
  rw [Report.about, link_report h, complete_report h, List.filter_append, List.filter_append,
    List.append_assoc]
  congr 1
  · refine filter_flatMap_about (fun e x hx => ?_) h.preorder_nodup hmem
    obtain ⟨r, -, hx⟩ := List.mem_filterMap.1 hx
    exact element_of_unbound? hx
  · congr 1
    · refine filter_flatMap_about (fun e x hx => ?_) h.preorder_nodup hmem
      split at hx
      · obtain ⟨r, -, hx⟩ := List.mem_filterMap.1 hx
        exact element_of_missing? hx
      · cases hx
    · refine filter_flatMap_about (fun e x hx => ?_) h.preorder_nodup hmem
      obtain ⟨i, -, hx⟩ := List.mem_filterMap.1 hx
      exact element_of_importDiagnostic? hx

private theorem not_isUndefined_of_missing? {x : Diagnostic} {r : SupertypeRole}
    (hx : m.missing? d r = some x) : ¬ x.IsUndefined := by
  rintro ⟨path, e, span, rfl⟩
  obtain ⟨p, -, hx⟩ := Option.bind_eq_some_iff.1 hx
  split at hx
  · have hcode : some "W0004" = some "E0001" := congrArg Diagnostic.code (Option.some.inj hx)
    exact absurd hcode (by decide)
  · cases hx

private theorem not_isUndefined_of_importDiagnostic? {x : Diagnostic} {i : Import}
    (hx : m.importDiagnostic? d i = some x) : ¬ x.IsUndefined := by
  rintro ⟨path, e, span, rfl⟩
  obtain ⟨p, hp, hx⟩ := Option.map_eq_some_iff.1 hx
  rw [importProblem?] at hp
  split at hp
  · cases hp
  · cases hp
    have hcode : some "E0014" = some "E0001" := congrArg Diagnostic.code hx
    exact absurd hcode (by decide)
  · cases hp
    have hmessage := congrArg Diagnostic.message hx
    exact Problem.message_undefinedReference_ne _ _ hmessage.symm

/-- A type has a specialization of each declaration that a request of it finds before any names are
taken. Each of the other requests is reported once. For a path that meets no taken name it makes no
difference that names are taken later. -/
theorem link_requests (h : m.Reachable) (hd : m.isType d) :
    (∀ r ∈ m.requests d, ∀ t, m.unlinked.bind? d r = some t →
      ∃ s ∈ m.link.specializations.get d, s.general = t) ∧
    (∃ others, m.link.report.about d =
        (m.requests d).filterMap (m.unlinked.unbound? d) ++ others ∧
      ∀ x ∈ others, ¬ x.IsUndefined) ∧
    ∀ r ∈ m.requests d, ∀ path, r.target = .path path → m.link.Untaken (m.owner d) path →
      m.link.bind? d r = m.unlinked.bind? d r := by
  have hforest : m.WellFormed := h.coherent.forest
  refine ⟨?_, ⟨_, about_link hforest (Forest.contains_of_isType hd), ?_⟩, ?_⟩
  · intro r hr t ht
    have hasked : r.toward t ∈ (m.requests d).filterMap (m.unlinked.asked? d) :=
      List.mem_filterMap.2 ⟨r, hr, by rw [asked?, ht, Option.map_some]⟩
    have hgeneral : t ∈ (m.writtenEdges d).map (·.general) :=
      mem_map_distinctBy.2 (List.mem_map_of_mem hasked)
    obtain ⟨s, hs, hst⟩ := List.mem_map.1 hgeneral
    refine ⟨s, ?_, hst⟩
    rw [link_get, complete_get hforest hd]
    exact List.mem_append_left _ hs
  · intro x hx
    rcases List.mem_append.1 hx with hx | hx
    · rw [if_pos hd] at hx
      obtain ⟨r, -, hx⟩ := List.mem_filterMap.1 hx
      exact not_isUndefined_of_missing? hx
    · obtain ⟨i, -, hx⟩ := List.mem_filterMap.1 hx
      exact not_isUndefined_of_importDiagnostic? hx
  · intro r _ path hpath huntaken
    have hfewer : TakesFewer m.unlinked m.link := .unlinked (link_forest m)
    simp only [bind?, hpath, link_forest]
    rw [← huntaken.lookup_eq hfewer]
    rfl

/-- A type with a feature `x`, another one whose feature redefines it and has no name of its own, and
a feature that subsets both `B::x` and `A::x`. -/
def borrowedName : Model :=
  performAll { library := .empty }
    [.addRoot { metaclass := .type, name := some "A" },
      .add ⟨0⟩ { metaclass := .feature, name := some "x" },
      .addRoot { metaclass := .type, name := some "B" },
      .add ⟨2⟩ { metaclass := .feature },
      .addRoot { metaclass := .feature, name := some "y" },
      .request ⟨3⟩ { target := .element ⟨1⟩, kind := .redefinition },
      .request ⟨4⟩ { target := .path ["B", "x"], kind := .subsetting },
      .request ⟨4⟩ { target := .path ["A", "x"], kind := .subsetting }]

theorem link_requests_borrowedName :
    borrowedName.Reachable ∧ borrowedName.isType ⟨4⟩ ∧
    (∃ s ∈ borrowedName.link.specializations.get ⟨4⟩, s.general = ⟨1⟩) ∧
    (∃ others, borrowedName.link.report.about ⟨4⟩ =
        [(Problem.undefinedReference "B::x").diagnostic ⟨4⟩ none] ++ others ∧
      ∀ x ∈ others, ¬ x.IsUndefined) ∧
    borrowedName.link.takenNames.get ⟨3⟩ = some "x" ∧
    borrowedName.link.Untaken (borrowedName.owner ⟨4⟩) ["A", "x"] ∧
    borrowedName.link.bind? ⟨4⟩ { target := .path ["A", "x"], kind := .subsetting } =
      some ⟨1⟩ := by
  have hreachable : borrowedName.Reachable := (Reachable.empty .empty).performAll _
  have htype : borrowedName.isType ⟨4⟩ := by decide +kernel
  have hsecond : ({ target := .path ["A", "x"], kind := .subsetting } : Request) ∈
      borrowedName.requests ⟨4⟩ := by decide +kernel
  have huntaken : borrowedName.link.Untaken (borrowedName.owner ⟨4⟩) ["A", "x"] := by
    decide +kernel
  obtain ⟨hedges, hreport, hlater⟩ := link_requests hreachable htype
  refine ⟨hreachable, htype, hedges _ hsecond ⟨1⟩ (by decide +kernel), ?_, by decide +kernel,
    huntaken, (hlater _ hsecond _ rfl huntaken).trans (by decide +kernel)⟩
  have hundefined : (borrowedName.requests ⟨4⟩).filterMap (borrowedName.unlinked.unbound? ⟨4⟩) =
      [(Problem.undefinedReference "B::x").diagnostic ⟨4⟩ none] := by decide +kernel
  rwa [hundefined] at hreport

/-- What `B::x` leads to after linking has not been bound, and it is reported that it leads nowhere. -/
theorem borrowedName_not_bound :
    borrowedName.Reachable ∧
    ({ target := .path ["B", "x"], kind := .subsetting } : Request) ∈ borrowedName.requests ⟨4⟩ ∧
    borrowedName.link.lookup (borrowedName.owner ⟨4⟩) ["B", "x"] = .found ⟨3⟩ ∧
    (∀ s ∈ borrowedName.link.specializations.get ⟨4⟩, s.general ≠ ⟨3⟩) ∧
    (Problem.undefinedReference "B::x").diagnostic ⟨4⟩ none ∈
      borrowedName.link.report.diagnostics := by
  refine ⟨(Reachable.empty .empty).performAll _, ?_, ?_, ?_, ?_⟩
  all_goals decide +kernel

end Model
end Kerml
