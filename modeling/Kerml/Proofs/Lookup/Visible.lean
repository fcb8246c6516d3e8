import Kerml.Proofs.Forest.OwnerChain
import Kerml.Proofs.Reachable

/-!
# What paths lead to

A path leads to a declaration only if everything that it starts with leads somewhere, and nothing
on the way is hidden from where the path is written.
-/
namespace Kerml.Model

variable {m : Model} {site : Option ElementId} {t o : ElementId} {path : List String}

/-- Whether a declaration that a path leads to is open to the site of the path. It is public, or a
member of something that the site is within, or global and named by a path of one segment. -/
def OpenTo (m : Model) (site : Option ElementId) (path : List String) (t : ElementId) : Prop :=
  m.visibility t = .pub ∨ (∃ s, site = some s ∧ ∃ o, m.Within s o ∧ t ∈ m.members o) ∨
    path.length = 1 ∧ t ∈ m.globals

theorem mem_enclosing_iff (h : m.WellFormed) :
    o ∈ m.enclosing site ↔ ∃ s, site = some s ∧ m.Within s o := by
  cases site with
  | none => simp [enclosing]
  | some s => simp [enclosing, h.mem_ownerChain_iff]

/-- A member that a site sees is public, or a member of something that the site is within. -/
theorem openTo_of_sees (h : m.WellFormed) (ht : t ∈ m.members o) (hsees : m.sees site o t) :
    m.OpenTo site path t := by
  rcases Bool.or_eq_true_iff.1 hsees with hpublic | hencloses
  · exact Or.inl (by simpa using hpublic)
  · obtain ⟨s, hs, hw⟩ := (mem_enclosing_iff h).1 (by simpa using hencloses)
    exact Or.inr (Or.inl ⟨s, hs, o, hw, ht⟩)

private theorem openTo_of_lookupLexical? (h : m.WellFormed) {name : String}
    (ht : m.lookupLexical? site name = some t) : m.OpenTo site [name] t := by
  rcases Option.or_eq_some_iff.1 ht with ht | ⟨-, ht⟩
  · obtain ⟨o, ho, hmember⟩ := List.exists_of_findSome?_eq_some ht
    obtain ⟨s, hs, hw⟩ := (mem_enclosing_iff h).1 ho
    exact Or.inr (Or.inl ⟨s, hs, o, hw, List.mem_of_find?_eq_some hmember⟩)
  · exact Or.inr (Or.inr ⟨rfl, List.mem_of_find?_eq_some ht⟩)

/-- What a path leads to is open to the site of the path. -/
theorem openTo_of_lookup (h : m.WellFormed) (ht : m.lookup site path = .found t) :
    m.OpenTo site path t := by
  rcases List.eq_nil_or_concat' path with rfl | ⟨upper, name, rfl⟩
  · cases ht
  · by_cases hupper : upper = []
    · subst hupper
      exact openTo_of_lookupLexical? h (lookup_singleton_eq_found_iff.1 ht)
    · obtain ⟨o, -, hmember, hsees⟩ := (lookup_concat_eq_found_iff hupper).1 ht
      exact openTo_of_sees h (List.mem_of_find?_eq_some hmember) hsees

/-- Without a site, only what is public is open to longer paths. -/
theorem OpenTo.public (ht : m.OpenTo none path t) (hpath : 2 ≤ path.length) :
    m.visibility t = .pub := by
  rcases ht with hpublic | ⟨s, hs, -⟩ | ⟨hlength, -⟩
  · exact hpublic
  · cases hs
  · omega

theorem lookup?_of_ne_nil (hpath : path ≠ []) :
    m.lookup? site path = if site.all m.contains then some (m.lookup site path) else none := by
  rw [lookup?, List.isEmpty_eq_false_iff.2 hpath, Bool.false_or]

/-- If a path leads to a declaration, then everything that the path starts with leads to a
declaration that is open to the site. What longer paths lead to from outside is public. -/
theorem lookup?_visible (h : m.Reachable) (ht : m.lookup? site path = some (.found t)) :
    (∀ upper, upper <+: path → upper ≠ [] →
      ∃ d, m.lookup? site upper = some (.found d) ∧ m.OpenTo site upper d) ∧
    (site = none → 2 ≤ path.length → m.visibility t = .pub) := by
  have hforest : m.WellFormed := h.coherent.forest
  have hpath : path ≠ [] := by
    rintro rfl
    cases ht
  rw [lookup?_of_ne_nil hpath, Option.ite_none_right_eq_some, Option.some_inj] at ht
  obtain ⟨hsite, ht⟩ := ht
  constructor
  · rintro upper ⟨lower, rfl⟩ hupper
    obtain ⟨d, hd⟩ := exists_found_of_append hupper ht
    refine ⟨d, ?_, openTo_of_lookup hforest hd⟩
    rw [lookup?_of_ne_nil hupper, if_pos hsite, hd]
  · rintro rfl hlength
    exact (openTo_of_lookup hforest ht).public hlength

/-- A private package without a named owner. It has a private class with a feature, and a public
package. -/
def privateParts : Model :=
  performAll { library := .empty }
    [.addRoot { metaclass := .package },
      .add ⟨0⟩ { metaclass := .package, name := some "P", visibility := .priv },
      .add ⟨1⟩ { metaclass := .klass, name := some "K", visibility := .priv },
      .add ⟨2⟩ { metaclass := .feature, name := some "x" },
      .add ⟨1⟩ { metaclass := .package, name := some "Q" }]

theorem lookup?_visible_privateParts :
    privateParts.Reachable ∧
    (privateParts.lookup? (some ⟨4⟩) ["P", "K", "x"] = some (.found ⟨3⟩) ∧
      (∀ upper, upper <+: ["P", "K", "x"] → upper ≠ [] →
        ∃ d, privateParts.lookup? (some ⟨4⟩) upper = some (.found d) ∧
          privateParts.OpenTo (some ⟨4⟩) upper d)) ∧
    (privateParts.lookup? none ["P", "Q"] = some (.found ⟨4⟩) ∧
      privateParts.visibility ⟨4⟩ = .pub) ∧
    privateParts.lookup? none ["P", "K", "x"] = some (.hidden ⟨2⟩) := by
  have hreachable : privateParts.Reachable := (Reachable.empty .empty).performAll _
  have hinside : privateParts.lookup? (some ⟨4⟩) ["P", "K", "x"] = some (.found ⟨3⟩) := by
    decide +kernel
  have houtside : privateParts.lookup? none ["P", "Q"] = some (.found ⟨4⟩) := by decide +kernel
  exact ⟨hreachable, ⟨hinside, (lookup?_visible hreachable hinside).1⟩,
    ⟨houtside, (lookup?_visible hreachable houtside).2 rfl (by decide)⟩, by decide +kernel⟩

end Kerml.Model
