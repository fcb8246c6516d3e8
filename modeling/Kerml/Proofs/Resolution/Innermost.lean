import Kerml.Proofs.Resolution.Canonical

/-!
# What simple names stand for

The innermost declaration at which a name is visible decides, and there the entries of the same
origin as the first one that answers to it. A name is ambiguous only between different
declarations.
-/
namespace Kerml

namespace Resolution

/-- Which answer a list of candidates makes is decided by whether there are none, one or more. -/
theorem ofCandidates_eq_found_iff {ds : List ElementId} {d : ElementId} :
    ofCandidates ds = .found d ↔ ds = [d] := by
  rcases ds with - | ⟨a, - | ⟨b, more⟩⟩ <;> simp [ofCandidates]

theorem ofCandidates_eq_ambiguous_iff {ds es : List ElementId} :
    ofCandidates ds = .ambiguous es ↔ ds = es ∧ 2 ≤ ds.length := by
  rcases ds with - | ⟨a, - | ⟨b, more⟩⟩ <;> simp [ofCandidates]

theorem ofCandidates_eq_notFound_iff {ds : List ElementId} :
    ofCandidates ds = .notFound ↔ ds = [] := by
  rcases ds with - | ⟨a, - | ⟨b, more⟩⟩ <;> simp [ofCandidates]

end Resolution

namespace Scope

variable {s : Scope} {name : String} {x : ScopeEntry} {others : List ScopeEntry}

theorem resolve_of_lookup_nil (h : s.lookup name = []) : s.resolve name = .notFound := by
  rw [resolve, h]

/-- The candidates for a name are the entries of the same origin as the first one that answers to
it. -/
theorem resolve_of_lookup_cons (h : s.lookup name = x :: others) : s.resolve name =
    .ofCandidates (((x :: others).filter (·.origin == x.origin)).map (·.element)) := by
  rw [resolve, h, List.filter_cons_of_pos (by simp)]
  rfl

private theorem resolve_ne_notFound (h : s.lookup name ≠ []) : s.resolve name ≠ .notFound := by
  obtain ⟨x, others, hx⟩ := List.exists_cons_of_ne_nil h
  rw [resolve_of_lookup_cons hx, ne_eq, Resolution.ofCandidates_eq_notFound_iff,
    List.filter_cons_of_pos (by simp)]
  simp

/-- Where the first entry is the only one of its origin, the name stands for it. -/
theorem resolve_eq_found (h : s.lookup name = x :: others)
    (halone : ∀ e ∈ others, e.origin ≠ x.origin) : s.resolve name = .found x.element := by
  have hnone : others.filter (·.origin == x.origin) = [] := by
    simpa [List.filter_eq_nil_iff] using halone
  rw [resolve_of_lookup_cons h, List.filter_cons_of_pos (by simp), hnone]
  rfl

/-- Where it is not, the name is ambiguous between all of that origin. -/
theorem resolve_eq_ambiguous (h : s.lookup name = x :: others)
    (hseveral : ∃ e ∈ others, e.origin = x.origin) : s.resolve name =
      .ambiguous (((x :: others).filter (·.origin == x.origin)).map (·.element)) := by
  obtain ⟨e, he, horigin⟩ := hseveral
  have hpos : 0 < (others.filter (·.origin == x.origin)).length :=
    List.length_pos_of_mem (List.mem_filter.2 ⟨he, by simp [horigin]⟩)
  rw [resolve_of_lookup_cons h, Resolution.ofCandidates_eq_ambiguous_iff]
  refine ⟨rfl, ?_⟩
  rw [List.length_map, List.filter_cons_of_pos (by simp), List.length_cons]
  omega

end Scope

namespace Model

variable {m n : Model} {d o a : ElementId} {name : String} {passed : List ElementId}

/-- A name is visible at a declaration, or else at the innermost of its owners at which it is. The
list holds the declarations on the way there at which it is not. -/
inductive Innermost (m : Model) (name : String) :
    ElementId → List ElementId → ElementId → Prop
  | here {d : ElementId} (hshown : (m.scope .inside d).lookup name ≠ []) : Innermost m name d [] d
  | outward {d o a : ElementId} {passed : List ElementId}
      (hshown : (m.scope .inside d).lookup name = []) (howner : m.owner d = some o)
      (hout : Innermost m name o passed a) : Innermost m name d (d :: passed) a

private theorem Innermost.lookup_ne_nil (h : m.Innermost name d passed a) :
    (m.scope .inside a).lookup name ≠ [] := by
  induction h with
  | here hshown => exact hshown
  | outward _ _ _ ih => exact ih

private theorem resolveOutward_of_lookup {outer : List ElementId}
    (h : (m.scope .inside d).lookup name ≠ []) :
    m.resolveOutward name (d :: outer) = (m.scope .inside d).resolve name := by
  have hne := Scope.resolve_ne_notFound h
  rw [resolveOutward]
  cases hr : (m.scope .inside d).resolve name <;> simp_all

theorem resolveOutward_of_lookup_nil {outer : List ElementId}
    (h : (m.scope .inside d).lookup name = []) :
    m.resolveOutward name (d :: outer) = m.resolveOutward name outer := by
  rw [resolveOutward, Scope.resolve_of_lookup_nil h]

/-- The way outward ends at the innermost declaration at which the name is visible. It is the same in
every model in which the scopes up to that one and the owners below it are the same. -/
theorem resolveSimple_of_innermost (h : m.WellFormed) (ha : m.Innermost name d passed a)
    (howners : ∀ e ∈ passed, n.owner e = m.owner e)
    (hscopes : ∀ e ∈ a :: passed, n.scope .inside e = m.scope .inside e) :
    n.resolveSimple d name = (m.scope .inside a).resolve name := by
  rw [resolveSimple]
  induction ha with
  | here hshown =>
    have hsame := hscopes _ List.mem_cons_self
    rw [Forest.ownerChain, resolveOutward_of_lookup (by rwa [hsame]), hsame]
  | @outward d o a passed hshown howner _ ih =>
    have hsame := hscopes d (by simp)
    rw [Forest.ownerChain, howners d (by simp), howner]
    simp only [h.owner_lt howner, dite_true]
    rw [resolveOutward_of_lookup_nil (by rwa [hsame])]
    refine ih (fun e he => howners e (by simp [he])) fun e he => hscopes e ?_
    rcases List.mem_cons.1 he with rfl | he
    · exact List.mem_cons_self
    · simp [he]

theorem Innermost.resolveSimple_eq (ha : m.Innermost name d passed a) (h : m.WellFormed) :
    m.resolveSimple d name = (m.scope .inside a).resolve name :=
  resolveSimple_of_innermost h ha (fun _ _ => rfl) fun _ _ => rfl

/-- Where a name is visible at no declaration on the way, it is global. -/
theorem resolveSimple_of_not_innermost (h : m.WellFormed)
    (hnone : ¬ ∃ passed a, m.Innermost name d passed a) :
    m.resolveSimple d name = m.resolveGlobal name := by
  rw [resolveSimple]
  induction hi : d.index using Nat.strongRecOn generalizing d with
  | _ k ih =>
    have hshown : (m.scope .inside d).lookup name = [] := by
      by_contra hne
      exact hnone ⟨[], d, .here hne⟩
    rw [h.ownerChain_eq, resolveOutward_of_lookup_nil hshown]
    cases ho : m.owner d with
    | none => rfl
    | some o =>
      refine ih o.index (hi ▸ h.owner_lt ho) ?_ rfl
      rintro ⟨passed, a, ha⟩
      exact hnone ⟨d :: passed, a, .outward hshown ho ha⟩

private theorem elements_lookup_nodup (m : Model) (d : ElementId) (name : String) :
    (((m.scope .inside d).lookup name).map (·.element)).Nodup :=
  (elements_scope_nodup m .inside d).sublist (List.filter_sublist.map _)

/-- In a scope as well, only different declarations are ambiguous. -/
theorem nodup_of_resolve_eq_ambiguous {candidates : List ElementId}
    (hr : (m.scope .inside a).resolve name = .ambiguous candidates) :
    candidates.Nodup ∧ 2 ≤ candidates.length := by
  cases hx : (m.scope .inside a).lookup name with
  | nil =>
    rw [Scope.resolve_of_lookup_nil hx] at hr
    cases hr
  | cons x others =>
    rw [Scope.resolve_of_lookup_cons hx, Resolution.ofCandidates_eq_ambiguous_iff] at hr
    obtain ⟨rfl, hseveral⟩ := hr
    have hnodup := elements_lookup_nodup m a name
    rw [hx] at hnodup
    exact ⟨hnodup.sublist (List.filter_sublist.map _), hseveral⟩

private theorem nodup_of_resolveGlobal_eq_ambiguous (h : m.WellFormed) {candidates : List ElementId}
    (hr : m.resolveGlobal name = .ambiguous candidates) :
    candidates.Nodup ∧ 2 ≤ candidates.length := by
  rw [resolveGlobal, Resolution.ofCandidates_eq_ambiguous_iff] at hr
  obtain ⟨rfl, hseveral⟩ := hr
  exact ⟨(globals_nodup h).filter _, hseveral⟩

/-- The first entry that answers to a simple name at the innermost declaration at which it is visible
is what the name stands for, unless other entries of its origin answer to the name there. Then the
name is ambiguous between all of these. What lies further outward does not matter. A name that is
visible nowhere on the way stands for the only global declaration that answers to it. Nothing is
ambiguous because it is visible in several ways. -/
theorem resolveSimple_innermost (h : m.Reachable) (hd : m.contains d) (name : String) :
    m.resolveSimple? d name = some (m.resolveSimple d name) ∧
    (∀ passed a, m.Innermost name d passed a →
      (∃ x others, (m.scope .inside a).lookup name = x :: others ∧
        ((∀ e ∈ others, e.origin ≠ x.origin) → m.resolveSimple d name = .found x.element) ∧
        ((∃ e ∈ others, e.origin = x.origin) → m.resolveSimple d name =
          .ambiguous (((x :: others).filter (·.origin == x.origin)).map (·.element)))) ∧
      ∀ n : Model, (∀ e ∈ passed, n.owner e = m.owner e) →
        (∀ e ∈ a :: passed, n.scope .inside e = m.scope .inside e) →
        n.resolveSimple d name = m.resolveSimple d name) ∧
    ((¬ ∃ passed a, m.Innermost name d passed a) →
      ((∀ g ∈ m.globals, ¬ m.answersTo g name) → m.resolveSimple d name = .notFound) ∧
      (∀ g, m.globals.filter (m.answersTo · name) = [g] → m.resolveSimple d name = .found g) ∧
      (2 ≤ (m.globals.filter (m.answersTo · name)).length →
        m.resolveSimple d name = .ambiguous (m.globals.filter (m.answersTo · name)))) ∧
    ∀ candidates, m.resolveSimple d name = .ambiguous candidates →
      candidates.Nodup ∧ 2 ≤ candidates.length := by
  have hwell : m.WellFormed := h.coherent.forest
  refine ⟨if_pos hd, fun passed a ha => ⟨?_, fun n howners hscopes => ?_⟩, fun hnone => ?_,
    fun candidates hr => ?_⟩
  · obtain ⟨x, others, hx⟩ := List.exists_cons_of_ne_nil ha.lookup_ne_nil
    rw [ha.resolveSimple_eq hwell]
    exact ⟨x, others, hx, Scope.resolve_eq_found hx, Scope.resolve_eq_ambiguous hx⟩
  · rw [resolveSimple_of_innermost hwell ha howners hscopes, ha.resolveSimple_eq hwell]
  · rw [resolveSimple_of_not_innermost hwell hnone, resolveGlobal]
    refine ⟨fun hno => ?_, fun g hg => ?_, fun hseveral => ?_⟩
    · exact Resolution.ofCandidates_eq_notFound_iff.2 (List.filter_eq_nil_iff.2 hno)
    · exact Resolution.ofCandidates_eq_found_iff.2 hg
    · exact Resolution.ofCandidates_eq_ambiguous_iff.2 ⟨rfl, hseveral⟩
  · by_cases hsome : ∃ passed a, m.Innermost name d passed a
    · obtain ⟨passed, a, ha⟩ := hsome
      rw [ha.resolveSimple_eq hwell] at hr
      exact nodup_of_resolve_eq_ambiguous hr
    · rw [resolveSimple_of_not_innermost hwell hsome] at hr
      exact nodup_of_resolveGlobal_eq_ambiguous hwell hr

/-- A package with a class and another one with a class that has the same name for short, both imported
by a third package, one of them in two ways. A feature below that package refers to the name. -/
def sharedName : Model :=
  performAll { library := .empty }
    [.addRoot { metaclass := .package, name := some "L" },
      .add ⟨0⟩ { metaclass := .klass, name := some "A" },
      .addRoot { metaclass := .package, name := some "M" },
      .add ⟨2⟩ { metaclass := .klass, name := some "B", shortName := some "A" },
      .addRoot { metaclass := .package, name := some "P" },
      .add ⟨4⟩ { metaclass := .klass, name := some "U" },
      .add ⟨5⟩ { metaclass := .feature, name := some "u" },
      .addImport ⟨4⟩ { path := ["L"], shape := .wildcard },
      .addImport ⟨4⟩ { path := ["L"], shape := .recursive },
      .addImport ⟨4⟩ { path := ["M"], shape := .wildcard },
      .link]

theorem resolveSimple_innermost_sharedName :
    sharedName.Reachable ∧ sharedName.contains ⟨6⟩ ∧
    sharedName.Innermost "A" ⟨6⟩ [⟨6⟩, ⟨5⟩] ⟨4⟩ ∧ sharedName.shortName ⟨3⟩ = some "A" ∧
    sharedName.resolveSimple? ⟨6⟩ "A" = some (.ambiguous [⟨1⟩, ⟨3⟩]) := by
  have hreachable : sharedName.Reachable := (Reachable.empty .empty).performAll _
  have hknown : sharedName.contains ⟨6⟩ := by decide +kernel
  have hfeature : (sharedName.scope .inside ⟨6⟩).lookup "A" = [] := by cbv
  have hclass : (sharedName.scope .inside ⟨5⟩).lookup "A" = [] := by cbv
  have hpackage : (sharedName.scope .inside ⟨4⟩).lookup "A" =
      [⟨"A", none, "L::A", ⟨1⟩, .imported⟩, ⟨"B", some "A", "M::B", ⟨3⟩, .imported⟩] := by cbv
  have hinnermost : sharedName.Innermost "A" ⟨6⟩ [⟨6⟩, ⟨5⟩] ⟨4⟩ :=
    .outward hfeature (by decide +kernel)
      (.outward hclass (by decide +kernel) (.here (by rw [hpackage]; simp)))
  obtain ⟨hanswer, hshown, -⟩ := resolveSimple_innermost hreachable hknown "A"
  obtain ⟨⟨x, others, hlookup, -, hseveral⟩, -⟩ := hshown _ _ hinnermost
  obtain ⟨rfl, rfl⟩ := List.cons.inj (hpackage.symm.trans hlookup)
  rw [hanswer, hseveral ⟨_, List.mem_singleton_self _, rfl⟩]
  exact ⟨hreachable, hknown, hinnermost, by decide +kernel, rfl⟩

end Model
end Kerml
