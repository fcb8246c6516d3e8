import Kerml.Link
import Mathlib.Data.List.Basic

/-!
# Paths that meet no taken name

What following a path finds depends on the names that features have taken only where the path meets one
of them. A path that meets none is followed as it is when fewer names are taken, or none at all.
-/
namespace Kerml.Model

variable {m n : Model} {d : ElementId} {path : List String}

/-- The names that one model has taken are among those that the other one has taken. -/
structure TakesFewer (n m : Model) : Prop where
  forest : n.toForest = m.toForest
  taken : ∀ d name, n.takenNames.get d = some name → m.takenNames.get d = some name

def NoMemberTook (m : Model) (name : String) (d : ElementId) : Prop :=
  ∀ e ∈ m.members d, m.takenNames.get e ≠ some name

/-- No global declaration has taken the name. Nor is it met at a root that has taken a name, or at the
members of the root, which were global without that name. -/
def NoGlobalTook (m : Model) (name : String) : Prop :=
  (∀ g ∈ m.globals, m.takenNames.get g ≠ some name) ∧
    ∀ r ∈ m.roots, m.takenNames.get r ≠ none →
      ¬ m.answersTo r name ∧ ∀ e ∈ m.members r, ¬ m.answersTo e name

/-- A name meets nothing that has taken it among the members of declarations, up to the first one that
has such a member, and else among the global declarations. -/
def UntakenFrom (m : Model) (name : String) : List ElementId → Prop
  | [] => m.NoGlobalTook name
  | a :: outer =>
    m.NoMemberTook name a ∧ (m.memberNamed? a name = none → m.UntakenFrom name outer)

/-- The later segments of a path meet nothing that has taken them on the way down. -/
def UntakenBelow (m : Model) (site : Option ElementId) : List String → ElementId → Prop
  | [], _ => True
  | name :: rest, d =>
    m.NoMemberTook name d ∧
      ∀ e ∈ m.memberNamed? d name, m.sees site d e → m.UntakenBelow site rest e

/-- Following a path as written at a site meets no name that a feature has taken. -/
def Untaken (m : Model) (site : Option ElementId) : List String → Prop
  | [] => True
  | name :: rest =>
    m.UntakenFrom name (m.enclosing site) ∧
      ∀ d ∈ m.lookupLexical? site name, m.UntakenBelow site rest d

instance (m : Model) (name : String) (d : ElementId) : Decidable (m.NoMemberTook name d) :=
  inferInstanceAs (Decidable (∀ e ∈ m.members d, _))

instance (m : Model) (name : String) : Decidable (m.NoGlobalTook name) :=
  inferInstanceAs (Decidable (_ ∧ ∀ r ∈ m.roots, _))

instance decidableUntakenFrom (m : Model) (name : String) :
    ∀ ds, Decidable (m.UntakenFrom name ds)
  | [] => inferInstanceAs (Decidable (m.NoGlobalTook name))
  | a :: outer =>
    have := decidableUntakenFrom m name outer
    inferInstanceAs (Decidable (m.NoMemberTook name a ∧ (_ → m.UntakenFrom name outer)))

instance decidableUntakenBelow (m : Model) (site : Option ElementId) :
    ∀ path d, Decidable (m.UntakenBelow site path d)
  | [], _ => isTrue trivial
  | name :: rest, d =>
    have := decidableUntakenBelow m site rest
    inferInstanceAs (Decidable (m.NoMemberTook name d ∧
      ∀ e ∈ m.memberNamed? d name, m.sees site d e → m.UntakenBelow site rest e))

instance (m : Model) (site : Option ElementId) : ∀ path, Decidable (m.Untaken site path)
  | [] => isTrue trivial
  | name :: rest =>
    inferInstanceAs (Decidable (m.UntakenFrom name (m.enclosing site) ∧
      ∀ d ∈ m.lookupLexical? site name, m.UntakenBelow site rest d))

namespace TakesFewer

theorem unlinked {m : Model} (hforest : n.toForest = m.toForest) : TakesFewer m.unlinked n where
  forest := hforest.symm
  taken d name hd := by cases hd

theorem answersTo_of (h : TakesFewer n m) {name : String} (hd : n.answersTo d name) :
    m.answersTo d name := by
  simp only [Model.answersTo, effectiveName, h.forest, Bool.or_eq_true, beq_iff_eq,
    Option.or_eq_some_iff] at hd ⊢
  exact hd.imp_left (Or.imp_right (And.imp_right (h.taken d name)))

/-- A declaration that has not taken a name answers to it in both models or in neither. -/
theorem answersTo (h : TakesFewer n m) {name : String} (hd : m.takenNames.get d ≠ some name) :
    n.answersTo d name = m.answersTo d name := by
  refine Bool.eq_iff_iff.2 ⟨h.answersTo_of, fun hm => ?_⟩
  simp only [Model.answersTo, effectiveName, Bool.or_eq_true, beq_iff_eq, Option.or_eq_some_iff, hd,
    and_false, or_false] at hm
  simp only [Model.answersTo, effectiveName, h.forest, Bool.or_eq_true, beq_iff_eq,
    Option.or_eq_some_iff]
  exact hm.imp_left Or.inl

theorem memberNamed? (h : TakesFewer n m) {name : String} (hd : m.NoMemberTook name d) :
    n.memberNamed? d name = m.memberNamed? d name := by
  rw [Model.memberNamed?, Model.memberNamed?, h.forest, ← List.head?_filter, ← List.head?_filter]
  exact congrArg List.head? (List.filter_congr fun e he => h.answersTo (hd e he))

/-- The first global declaration that answers to the name is the same, root by root. -/
theorem find?_globals (h : TakesFewer n m) {name : String} (hname : m.NoGlobalTook name) :
    n.globals.find? (n.answersTo · name) = m.globals.find? (m.answersTo · name) := by
  obtain ⟨hglobals, hroots⟩ := hname
  rw [globals, globals, List.find?_flatMap, List.find?_flatMap, h.forest, ← List.head?_filterMap,
    ← List.head?_filterMap]
  refine congrArg List.head? (List.filterMap_congr fun r hr => ?_)
  have hmem : ∀ e ∈ (if (m.effectiveName r).isSome then [r] else m.members r),
      m.takenNames.get e ≠ some name :=
    fun e he => hglobals e (List.mem_flatMap.2 ⟨r, hr, he⟩)
  by_cases htaken : m.takenNames.get r = none
  · -- the root is as global in one model as in the other
    have hfewer : n.takenNames.get r = none :=
      Option.eq_none_iff_forall_ne_some.2 fun other hother => by
        cases htaken.symm.trans (h.taken r other hother)
    have heffective : n.effectiveName r = m.effectiveName r := by
      rw [effectiveName, effectiveName, htaken, hfewer, h.forest]
    rw [heffective, ← List.head?_filter, ← List.head?_filter]
    exact congrArg List.head? (List.filter_congr fun e he => h.answersTo (hmem e he))
  · obtain ⟨hself, hmembers⟩ := hroots r hr htaken
    have hnone : ∀ e, e = r ∨ e ∈ m.members r → ¬ m.answersTo e name ∧ ¬ n.answersTo e name := by
      rintro e (rfl | he)
      · exact ⟨hself, mt h.answersTo_of hself⟩
      · exact ⟨hmembers e he, mt h.answersTo_of (hmembers e he)⟩
    have hportion : ∀ (b : Bool), ∀ e ∈ (if b then [r] else m.members r), e = r ∨ e ∈ m.members r := by
      intro b e he
      cases b with
      | true => exact Or.inl (List.mem_singleton.1 he)
      | false => exact Or.inr he
    rw [List.find?_eq_none.2 fun e he => (hnone e (hportion _ e he)).2,
      List.find?_eq_none.2 fun e he => (hnone e (hportion _ e he)).1]

end TakesFewer

theorem UntakenFrom.lookup_eq (h : TakesFewer n m) {name : String} {ds : List ElementId}
    (hname : m.UntakenFrom name ds) :
    (ds.findSome? (n.memberNamed? · name)).or (n.globals.find? (n.answersTo · name)) =
      (ds.findSome? (m.memberNamed? · name)).or (m.globals.find? (m.answersTo · name)) := by
  induction ds with
  | nil => exact h.find?_globals hname
  | cons a outer ih =>
    rw [List.findSome?_cons, List.findSome?_cons, h.memberNamed? hname.1]
    cases hmember : m.memberNamed? a name with
    | none => exact ih (hname.2 hmember)
    | some e => rfl

theorem UntakenBelow.descend_eq (h : TakesFewer n m) {site : Option ElementId}
    (hpath : m.UntakenBelow site path d) : n.descend site d path = m.descend site d path := by
  induction path generalizing d with
  | nil => rfl
  | cons name rest ih =>
    have hsees : n.sees = m.sees := by
      funext site d member
      rw [sees, sees, enclosing, enclosing, h.forest]
    rw [descend, descend, h.memberNamed? hpath.1, hsees]
    cases hmember : m.memberNamed? d name with
    | none => rfl
    | some e =>
      cases hseen : m.sees site d e with
      | false => simp only [hseen, Bool.false_eq_true, if_false]
      | true => simp only [hseen, if_true, ih (hpath.2 e hmember hseen)]

/-- A path that meets no taken name is followed as it is when fewer names are taken. -/
theorem Untaken.lookup_eq (h : TakesFewer n m) {site : Option ElementId}
    (hpath : m.Untaken site path) : n.lookup site path = m.lookup site path := by
  cases path with
  | nil => rfl
  | cons name rest =>
    have hlexical : n.lookupLexical? site name = m.lookupLexical? site name := by
      rw [lookupLexical?, lookupLexical?, enclosing, h.forest]
      exact UntakenFrom.lookup_eq h hpath.1
    rw [lookup, lookup, hlexical]
    cases hfirst : m.lookupLexical? site name with
    | none => rfl
    | some d => exact UntakenBelow.descend_eq h (hpath.2 d hfirst)

end Kerml.Model
