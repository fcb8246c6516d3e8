import Kerml.Proofs.Import.Visible
import Kerml.Proofs.Resolution.Canonical

/-!
# What others see of a declaration

Its scope shows them its public members, those of its public supertypes, and what its imports
bring in. A reference of several segments finds nothing else.
-/
namespace Kerml

open Relation

theorem Resolution.eq_singleton_of_ofCandidates {ds : List ElementId} {d : ElementId}
    (h : ofCandidates ds = .found d) : ds = [d] := by
  match ds with
  | [] => cases h
  | [c] =>
    cases h
    rfl
  | _ :: _ :: _ => cases h

/-- A name stands for something that is visible. -/
theorem Scope.exists_entry_of_resolve {s : Scope} {name : String} {d : ElementId}
    (h : s.resolve name = .found d) : ∃ e ∈ s.entries, e.element = d := by
  rw [resolve] at h
  cases hlookup : s.lookup name with
  | nil => simp [hlookup] at h
  | cons e rest =>
    rw [hlookup] at h
    obtain ⟨hd, -⟩ := List.cons_eq_cons.1 (Resolution.eq_singleton_of_ofCandidates h)
    have he : e ∈ s.lookup name := hlookup ▸ List.mem_cons_self
    exact ⟨e, (List.mem_filter.1 he).1, hd⟩

namespace Model

variable {m : Model} {v : Viewpoint} {d o t : ElementId}

/-- A declaration specializes another one publicly, other than by redefining it. -/
def PubliclySpecializes (m : Model) (d t : ElementId) : Prop :=
  ∃ s ∈ m.specializations.get d, s.general = t ∧ s.visibility = .pub ∧
    s.kind.includes .specialization ∧ ¬ s.kind.isRedefinition

/-- What may be shown to others at a declaration under each origin. -/
def ShownAs (m : Model) (d t : ElementId) : Origin → Prop
  | .own => t ∈ m.members d ∧ m.visibility t = .pub
  | .imported => ∃ i ∈ m.imported d, i.element = t
  | .inherited =>
    ∃ general, TransGen m.PubliclySpecializes d general ∧ t ∈ m.members general ∧
      m.visibility t = .pub

theorem publiclySpecializes_of_follows {isOwn : Bool} (h : m.Follows .outside isOwn d t) :
    m.PubliclySpecializes d t := by
  obtain ⟨s, hs, ht, hkind, hnot, hpublic | ⟨hinside, -⟩⟩ := h
  · exact ⟨s, hs, ht, hpublic, hkind, hnot⟩
  · cases hinside

/-- What a declaration passes on to others is inherited along public specializations alone. -/
theorem transGen_of_inherits (h : m.Inherits .outside d t) :
    TransGen m.PubliclySpecializes d t := by
  obtain ⟨a, hda, hat⟩ := h
  exact TransGen.head' (publiclySpecializes_of_follows hda)
    (ReflTransGen.mono (fun _ _ => publiclySpecializes_of_follows) a t hat)

theorem exists_candidate_of_mem_scope {e : ScopeEntry} (he : e ∈ (m.scope v d).entries) :
    ∃ c ∈ m.candidates v d, c.element = e.element ∧ c.origin = e.origin := by
  rw [scope] at he
  split at he
  · have hunhidden : e ∈ m.unhiddenEntries v d := (List.mem_filter.1 he).1
    obtain ⟨c, hc, hce⟩ := List.mem_filterMap.1 (mem_of_mem_distinctBy hunhidden)
    exact ⟨c, hc, (element_of_entry hce).symm, (origin_of_entry hce).symm⟩
  · cases he

/-- Every candidate for the scope that others see may be shown to them. -/
theorem shownAs_of_mem_candidates (h : Coherent m) {c : Candidate}
    (hc : c ∈ m.candidates .outside d) : m.ShownAs d c.element c.origin := by
  rw [candidates_eq_listed, listed, if_neg (by simp), List.append_nil] at hc
  rcases List.mem_append.1 hc with hc | hinherited
  · rcases List.mem_append.1 hc with hown | himported
    · obtain ⟨t, ht, rfl⟩ := List.mem_map.1 hown
      exact ⟨(List.mem_filter.1 ht).1, public_of_mem_membersFor ht⟩
    · obtain ⟨i, hi, rfl⟩ := List.mem_map.1 himported
      exact ⟨i, hi, rfl⟩
  · obtain ⟨a, ha, hc⟩ := List.mem_flatMap.1 hinherited
    rw [if_neg (by simp), List.nil_append] at hc
    obtain ⟨t, ht, rfl⟩ := List.mem_map.1 hc
    obtain ⟨-, -, hinherits⟩ := (mem_scopeAncestors_iff h).1 (List.mem_map_of_mem ha)
    exact ⟨a.element, transGen_of_inherits hinherits, (List.mem_filter.1 ht).1,
      public_of_mem_membersFor ht⟩

theorem shownAs_of_mem_scope (h : Coherent m) {e : ScopeEntry}
    (he : e ∈ (m.scope .outside d).entries) : m.ShownAs d e.element e.origin := by
  obtain ⟨c, hc, helement, horigin⟩ := exists_candidate_of_mem_scope he
  rw [← helement, ← horigin]
  exact shownAs_of_mem_candidates h hc

/-- What a name stands for in what others see of a declaration is public or imported there. -/
theorem public_or_imported_of_resolve (h : Coherent m) {name : String}
    (ht : (m.scope .outside o).resolve name = .found t) :
    m.visibility t = .pub ∨ ∃ p, Active m o p ∧ ∃ i ∈ p.share m, i.element = t := by
  obtain ⟨e, he, rfl⟩ := Scope.exists_entry_of_resolve ht
  have hshown := shownAs_of_mem_scope h he
  cases horigin : e.origin with
  | own =>
    rw [horigin] at hshown
    exact Or.inl hshown.2
  | imported =>
    rw [horigin] at hshown
    obtain ⟨i, hi, helement⟩ := hshown
    obtain ⟨p, hp, hi⟩ := (mem_imported_iff h.forest).1 hi
    exact Or.inr ⟨p, hp, i, hi, helement⟩
  | inherited =>
    rw [horigin] at hshown
    obtain ⟨general, -, -, hpublic⟩ := hshown
    exact Or.inl hpublic

/-- The last segment of a reference is looked up in what the segments before it lead to. -/
theorem exists_of_resolveBelow_concat {r : Resolution} {path : List String} {name : String}
    (h : m.resolveBelow r (path ++ [name]) = .found t) :
    ∃ o, m.resolveBelow r path = .found o ∧ (m.scope .outside o).resolve name = .found t := by
  induction path generalizing r with
  | nil =>
    cases r with
    | found o => exact ⟨o, rfl, h⟩
    | ambiguous ds => cases h
    | notFound => cases h
  | cons first rest ih =>
    cases r with
    | found d => exact ih h
    | ambiguous ds => cases h
    | notFound => cases h

private theorem exists_of_resolvePath {s : ElementId} {path : List String} (hpath : 2 ≤ path.length)
    (h : m.resolvePath s path = .found t) :
    ∃ o name, m.resolvePath s path.dropLast = .found o ∧
      (m.scope .outside o).resolve name = .found t := by
  match path with
  | first :: second :: rest =>
    have hne : second :: rest ≠ [] := List.cons_ne_nil _ _
    rw [resolvePath, ← List.dropLast_concat_getLast hne] at h
    obtain ⟨o, ho, ht⟩ := exists_of_resolveBelow_concat h
    exact ⟨o, _, ho, ht⟩

/-- What others see of a declaration is its public members, the public members of its public
supertypes, and what its imports bring in. Therefore what a reference of several segments stands for
is public, or brought in by a directive that takes part in the imports of what the segments before
the last one stand for. -/
theorem scope_outside_visible (h : m.Reachable) :
    (∀ d, ∀ e ∈ (m.scope .outside d).entries, m.ShownAs d e.element e.origin) ∧
    ∀ s text path t, QualifiedName.parse? text = some path → 2 ≤ path.length →
      m.resolve? s text = some (.found t) →
      ∃ o, m.resolvePath s path.dropLast = .found o ∧
        (m.visibility t = .pub ∨ ∃ p, Active m o p ∧ ∃ i ∈ p.share m, i.element = t) := by
  refine ⟨fun d e he => shownAs_of_mem_scope h.coherent he, ?_⟩
  intro s text path t hparse hlength hresolve
  rw [resolve?, Option.ite_none_right_eq_some, Option.some_inj, resolve, hparse] at hresolve
  obtain ⟨o, name, ho, ht⟩ := exists_of_resolvePath hlength hresolve.2
  exact ⟨o, ho, public_or_imported_of_resolve h.coherent ht⟩

/-- A class that imports a private class of its package. It inherits publicly from one class, of whose
features one is protected, and privately from another one. -/
def frontClass : Model :=
  performAll { library := .empty }
    [.addRoot { metaclass := .package, name := some "P" },
      .add ⟨0⟩ { metaclass := .klass, name := some "B" },
      .add ⟨1⟩ { metaclass := .feature, name := some "x" },
      .add ⟨1⟩ { metaclass := .feature, name := some "y", visibility := .prot },
      .add ⟨0⟩ { metaclass := .klass, name := some "H" },
      .add ⟨4⟩ { metaclass := .feature, name := some "z" },
      .add ⟨0⟩ { metaclass := .klass, name := some "D" },
      .add ⟨0⟩ { metaclass := .klass, name := some "K", visibility := .priv },
      .request ⟨6⟩ { target := .path ["B"], kind := .subclassification },
      .request ⟨6⟩ { target := .path ["H"], kind := .subclassification, visibility := .priv },
      .addImport ⟨6⟩ { path := ["K"] },
      .link]

theorem scope_outside_visible_frontClass :
    frontClass.Reachable ∧
    ((frontClass.scope .outside ⟨6⟩).entries.map fun e => (e.element, e.origin)) =
      [(⟨7⟩, .imported), (⟨2⟩, .inherited)] ∧
    (∀ e ∈ (frontClass.scope .outside ⟨6⟩).entries,
      frontClass.ShownAs ⟨6⟩ e.element e.origin) ∧
    frontClass.resolve? ⟨5⟩ "P::D::K" = some (.found ⟨7⟩) ∧ frontClass.visibility ⟨7⟩ = .priv ∧
    ∃ o, frontClass.resolvePath ⟨5⟩ ["P", "D"] = .found o ∧
      (frontClass.visibility ⟨7⟩ = .pub ∨
        ∃ p, Active frontClass o p ∧ ∃ i ∈ p.share frontClass, i.element = ⟨7⟩) := by
  have hreachable : frontClass.Reachable := (Reachable.empty .empty).performAll _
  have hparse : QualifiedName.parse? "P::D::K" = some ["P", "D", "K"] := by cbv
  have hresolve : frontClass.resolve? ⟨5⟩ "P::D::K" = some (.found ⟨7⟩) := by cbv
  obtain ⟨hshown, hfound⟩ := scope_outside_visible hreachable
  exact ⟨hreachable, by cbv, hshown ⟨6⟩, hresolve, by decide +kernel,
    hfound ⟨5⟩ "P::D::K" ["P", "D", "K"] ⟨7⟩ hparse (by decide) hresolve⟩

end Model
end Kerml
