import Kerml.Proofs.Scope.Distance
import Mathlib

/-!
# What redefinitions do to a scope

They are compared at equal distances. A feature that a single declaration redefines at some
distance is hidden, and where several do so, each of them but the first is reported.
-/
namespace Kerml.Model

variable {m : Model} {v : Viewpoint} {d g r : ElementId} {k n : Nat}

/-- A declaration redefines a feature if one of its specializations is a redefinition of it. -/
def Redefines (m : Model) (r g : ElementId) : Prop :=
  ∃ s ∈ m.specializations.get r, s.kind.includes .redefinition ∧ s.general = g

open scoped Classical in
/-- The declarations whose redefinitions count at a distance, in the order in which they are met:
the declaration that is looked at and its members, and further away the members of its supertypes,
whatever their visibility. -/
noncomputable def sitesAt (m : Model) (v : Viewpoint) (d : ElementId) (k : Nat) : List ElementId :=
  (if k = 0 then d :: m.members d else []) ++
    ((m.scopeAncestors v d).filter fun a => m.IsDistance v d k a.element).flatMap
      fun a => m.members a.element

open scoped Classical in
noncomputable def redefinersAt (m : Model) (v : Viewpoint) (d : ElementId) (k : Nat)
    (g : ElementId) : List ElementId :=
  (m.sitesAt v d k).filter fun r => m.Redefines r g

/-- The report of a redefinition of a feature that another declaration redefines first. -/
def redefinedTwice (m : Model) (g first r : ElementId) : Diagnostic where
  element := r
  span := m.span r
  severity := .error
  code := some "E0009"
  message := "ambiguous redefinition: '" ++ m.qualifiedName g ++ "' is already redefined by '" ++
    m.qualifiedName first ++ "'"
  related := [{ element := first, span := m.span first,
                message := "first redefinition of '" ++ m.qualifiedName g ++ "'" }]

def clashes (m : Model) (g : ElementId) : List ElementId → List Diagnostic
  | [] => []
  | first :: others => others.map (m.redefinedTwice g first)

theorem mem_redefinersAt_iff : r ∈ m.redefinersAt v d k g ↔ m.Redefines r g ∧
    (k = 0 ∧ (r = d ∨ r ∈ m.members d) ∨
      ∃ t ∈ (m.scopeAncestors v d).map (·.element), m.IsDistance v d k t ∧ r ∈ m.members t) := by
  have hnear : r ∈ (if k = 0 then d :: m.members d else []) ↔ k = 0 ∧ (r = d ∨ r ∈ m.members d) := by
    by_cases hk : k = 0 <;> simp [hk]
  have hfar : (∃ a, (a ∈ m.scopeAncestors v d ∧ m.IsDistance v d k a.element) ∧
      r ∈ m.members a.element) ↔
      ∃ t ∈ (m.scopeAncestors v d).map (·.element), m.IsDistance v d k t ∧ r ∈ m.members t := by
    simp [and_assoc]
  rw [redefinersAt, sitesAt, List.mem_filter, List.mem_append, hnear, List.mem_flatMap]
  simp only [List.mem_filter, decide_eq_true_eq, hfar]
  exact and_comm

/-- Nothing makes its redefinitions twice at the same distance. -/
theorem sitesAt_nodup (h : Coherent m) : (m.sitesAt v d k).Nodup := by
  classical
  have hfar : (((m.scopeAncestors v d).filter fun a => m.IsDistance v d k a.element).flatMap
      fun a => m.members a.element).Nodup := by
    refine List.nodup_flatMap.2 ⟨fun a _ => h.forest.members_nodup a.element, ?_⟩
    refine ((List.pairwise_map.1 (scopeAncestors_nodup h v d)).filter _).imp ?_
    intro a b hab r ha hb
    rw [h.forest.mem_members_iff] at ha hb
    exact hab (Option.some.inj (ha.symm.trans hb))
  by_cases hk : k = 0
  · have hnone : (m.scopeAncestors v d).filter (fun a => m.IsDistance v d k a.element) = [] := by
      rw [List.filter_eq_nil_iff]
      intro a ha hzero
      have hne := ((mem_scopeAncestors_iff h).1 (List.mem_map_of_mem ha)).2.1
      have hclimbs := (of_decide_eq_true hzero).1
      rw [hk] at hclimbs
      cases hclimbs
      exact hne rfl
    have hself : d ∉ m.members d := fun hd =>
      Nat.lt_irrefl _ (h.forest.lt_of_mem_members hd)
    rw [sitesAt, if_pos hk, hnone, List.flatMap_nil, List.append_nil, List.nodup_cons]
    exact ⟨hself, h.forest.members_nodup d⟩
  · rw [sitesAt, if_neg hk, List.nil_append]
    exact hfar

/-- The redefiners among redefinitions of one feature at one distance, with repetitions. -/
def selected (key : Nat × ElementId) (rs : List Redefinition) : List ElementId :=
  (rs.filter fun r => (r.distance, r.redefined) == key).map (·.redefiner)

def redefinersOf (m : Model) (g r : ElementId) : List ElementId :=
  ((m.specializationsOf r .redefinition).filter fun s => s.general == g).map fun _ => r

private theorem isEmpty_redefinersOf : (m.redefinersOf g r).isEmpty ↔ ¬ m.Redefines r g := by
  rw [List.isEmpty_iff, redefinersOf, List.map_eq_nil_iff, List.filter_eq_nil_iff]
  simp [Redefines, specializationsOf, Specialization.matching]

theorem selected_append (key : Nat × ElementId) (rs ss : List Redefinition) :
    selected key (rs ++ ss) = selected key rs ++ selected key ss := by
  rw [selected, List.filter_append, List.map_append]
  rfl

theorem selected_flatMap {α : Type} (key : Nat × ElementId) (as : List α)
    (f : α → List Redefinition) :
    selected key (as.flatMap f) = as.flatMap fun a => selected key (f a) := by
  rw [selected, List.filter_flatMap, List.map_flatMap]
  rfl

theorem selected_redefinitionsBy : selected (k, g) (m.redefinitionsBy n r) =
    if n = k then m.redefinersOf g r else [] := by
  have hkey : ∀ s : Specialization, ((n, s.general) == (k, g)) = (n == k && s.general == g) :=
    fun s => rfl
  rw [selected, redefinitionsBy, List.filter_map, List.map_map, redefinersOf]
  split
  · rename_i hn
    subst hn
    simp [hkey, Function.comp_def]
  · rename_i hn
    simp [hn, Function.comp_def]

theorem selected_redefinitionsIn : selected (k, g) (m.redefinitionsIn n r) =
    if n = k then (m.members r).flatMap (m.redefinersOf g) else [] := by
  rw [redefinitionsIn, selected_flatMap]
  simp only [selected_redefinitionsBy]
  split
  · rfl
  · exact List.flatMap_eq_nil_iff.2 fun _ _ => rfl

private theorem selected_redefinitions (h : Coherent m) :
    selected (k, g) (m.redefinitions v d) = (m.sitesAt v d k).flatMap (m.redefinersOf g) := by
  classical
  have hfar : ∀ a ∈ m.scopeAncestors v d,
      selected (k, g) ((((m.distances v d).lookup a.element).map fun distance =>
        m.redefinitionsIn distance a.element).getD []) =
      if m.IsDistance v d k a.element then
        (m.members a.element).flatMap (m.redefinersOf g) else [] := by
    intro a ha
    obtain ⟨n, hn⟩ := (exists_mem_distances_iff h).2 (Or.inr (List.mem_map_of_mem ha))
    rw [mem_distances_iff h] at hn
    rw [lookup_distances h hn, Option.map_some, Option.getD_some, selected_redefinitionsIn]
    exact if_congr ⟨fun hnk => hnk ▸ hn, fun hk => hn.unique hk⟩ rfl rfl
  have hall : ∀ as : List Ancestor,
      (as.flatMap fun a => if m.IsDistance v d k a.element then
        (m.members a.element).flatMap (m.redefinersOf g) else []) =
      ((as.filter fun a => m.IsDistance v d k a.element).flatMap
        fun a => m.members a.element).flatMap (m.redefinersOf g) := by
    intro as
    induction as with
    | nil => rfl
    | cons a as ih =>
      by_cases ha : m.IsDistance v d k a.element <;> simp [ha, ih]
  rw [redefinitions, selected_append, selected_append, selected_flatMap, selected_redefinitionsBy,
    selected_redefinitionsIn, List.flatMap_congr hfar, hall, sitesAt, List.flatMap_append]
  congr 1
  by_cases hk : 0 = k
  · simp [← hk]
  · simp [hk, Ne.symm hk]

/-- The redefiners of a group are those that redefine its feature at its distance. -/
theorem distinct_selected (h : Coherent m) :
    distinct (selected (k, g) (m.redefinitions v d)) = m.redefinersAt v d k g := by
  classical
  have hself : ∀ r, ∀ b ∈ m.redefinersOf g r, b = r := by
    intro r b hb
    obtain ⟨s, -, rfl⟩ := List.mem_map.1 hb
    rfl
  rw [selected_redefinitions h, distinct_flatMap (sitesAt_nodup h) hself, redefinersAt]
  refine List.filter_congr fun r _ => ?_
  rw [Bool.eq_iff_iff, Bool.not_eq_true', ← Bool.not_eq_true, isEmpty_redefinersOf, not_not,
    decide_eq_true_eq]

/-- The distances and features of the groups, in the order of the first redefinition of each. -/
def groupKeys (m : Model) (v : Viewpoint) (d : ElementId) : List (Nat × ElementId) :=
  distinct ((m.redefinitions v d).map fun r => (r.distance, r.redefined))

theorem groups_redefinitions (h : Coherent m) :
    groups (m.redefinitions v d) =
      (m.groupKeys v d).map fun p => ⟨p.2, m.redefinersAt v d p.1 p.2⟩ := by
  rw [groups, groupKeys]
  exact List.map_congr_left fun p _ => by rw [← distinct_selected h, selected]

theorem mem_groupKeys_iff (h : Coherent m) :
    (k, g) ∈ m.groupKeys v d ↔ m.redefinersAt v d k g ≠ [] := by
  rw [groupKeys, mem_distinct, ← distinct_selected h, ne_eq, List.eq_nil_iff_forall_not_mem,
    not_forall_not]
  simp only [mem_distinct, selected, List.mem_map, List.mem_filter, beq_iff_eq]
  constructor
  · rintro ⟨r, hr, hkey⟩
    exact ⟨r.redefiner, r, ⟨hr, hkey⟩, rfl⟩
  · rintro ⟨-, r, ⟨hr, hkey⟩, -⟩
    exact ⟨r, hr, hkey⟩

/-- A feature is hidden if it has a single redefiner at some distance. -/
theorem mem_hidden_iff (h : Coherent m) :
    g ∈ ((groups (m.redefinitions v d)).filter (·.isUnique)).map (·.redefined) ↔
      ∃ k, (m.redefinersAt v d k g).length = 1 := by
  rw [groups_redefinitions h]
  simp only [List.mem_map, List.mem_filter, RedefinitionGroup.isUnique, beq_iff_eq]
  constructor
  · rintro ⟨group, ⟨⟨p, -, rfl⟩, hone⟩, rfl⟩
    exact ⟨p.1, hone⟩
  · rintro ⟨k, hone⟩
    have hne : m.redefinersAt v d k g ≠ [] := fun hnil => by simp [hnil] at hone
    exact ⟨_, ⟨⟨(k, g), (mem_groupKeys_iff h).2 hne, rfl⟩, hone⟩, rfl⟩

private theorem ambiguities_eq_clashes (m : Model) (group : RedefinitionGroup) :
    m.ambiguities group = m.clashes group.redefined group.redefiners := by
  rw [ambiguities, clashes.eq_def]
  cases group.redefiners <;> rfl

noncomputable def contested (m : Model) (v : Viewpoint) (d : ElementId) : List (Nat × ElementId) :=
  (m.groupKeys v d).filter fun p => 2 ≤ (m.redefinersAt v d p.1 p.2).length

theorem mem_contested_iff (h : Coherent m) :
    (k, g) ∈ m.contested v d ↔ 2 ≤ (m.redefinersAt v d k g).length := by
  rw [contested, List.mem_filter, mem_groupKeys_iff h, decide_eq_true_eq]
  refine and_iff_right_of_imp fun htwo hnil => ?_
  rw [hnil] at htwo
  cases htwo

private theorem contested_nodup (m : Model) (v : Viewpoint) (d : ElementId) : (m.contested v d).Nodup :=
  (distinct_nodup _).filter _

theorem ambiguities_groups (h : Coherent m) :
    ((groups (m.redefinitions v d)).filter (!·.isUnique)).flatMap m.ambiguities =
      (m.contested v d).flatMap fun p => m.clashes p.2 (m.redefinersAt v d p.1 p.2) := by
  have hcontested : (m.groupKeys v d).filter
      (fun p => !((m.redefinersAt v d p.1 p.2).length == 1)) = m.contested v d := by
    refine List.filter_congr fun p hp => ?_
    have hpos := List.length_pos_iff.2 ((mem_groupKeys_iff h).1 hp)
    rw [Bool.eq_iff_iff, Bool.not_eq_true', beq_eq_false_iff_ne, decide_eq_true_eq]
    omega
  rw [groups_redefinitions h, List.filter_map, List.flatMap_map]
  simp only [ambiguities_eq_clashes]
  rw [← hcontested]
  rfl

theorem mem_entries_scope_iff (h : Coherent m) (hd : m.contains d) {e : ScopeEntry} :
    e ∈ (m.scope v d).entries ↔
      e ∈ m.unhiddenEntries v d ∧ ∀ k, (m.redefinersAt v d k e.element).length ≠ 1 := by
  rw [scope, if_pos hd, List.mem_filter, Bool.not_eq_true', List.contains_eq_mem,
    decide_eq_false_iff_not, mem_hidden_iff h, not_exists]

theorem mem_elements_scope_iff (h : Coherent m) (hd : m.contains d) :
    g ∈ (m.scope v d).elements ↔
      g ∈ (m.unhiddenEntries v d).map (·.element) ∧
        ∀ k, (m.redefinersAt v d k g).length ≠ 1 := by
  simp only [Scope.elements, List.mem_map, mem_entries_scope_iff h hd]
  constructor
  · rintro ⟨e, ⟨he, hkept⟩, rfl⟩
    exact ⟨⟨e, he, rfl⟩, hkept⟩
  · rintro ⟨⟨e, he, rfl⟩, hkept⟩
    exact ⟨e, ⟨he, hkept⟩, rfl⟩

theorem diagnostics_scope (h : Coherent m) (hd : m.contains d) :
    (m.scope v d).diagnostics =
      (m.contested v d).flatMap fun p => m.clashes p.2 (m.redefinersAt v d p.1 p.2) := by
  rw [scope, if_pos hd]
  exact ambiguities_groups h

open scoped Classical in
/-- The breadth-first distances are the least numbers of followed specializations, to the very
supertypes that are found by going deep first. A scope lacks the features that have a single redefiner
at some distance, and reports all but the first redefiner of each feature that has several at one
distance. -/
theorem scope_redefinitions (h : m.Reachable) (v : Viewpoint) (hd : m.contains d) :
    (∀ t n, (t, n) ∈ m.distances v d ↔ m.IsDistance v d n t) ∧
    (∀ t, (∃ n, (t, n) ∈ m.distances v d) ↔
      t = d ∨ t ∈ (m.scopeAncestors v d).map (·.element)) ∧
    (∀ k g r, r ∈ m.redefinersAt v d k g ↔ m.Redefines r g ∧
      (k = 0 ∧ (r = d ∨ r ∈ m.members d) ∨
        ∃ t ∈ (m.scopeAncestors v d).map (·.element), m.IsDistance v d k t ∧ r ∈ m.members t)) ∧
    (∀ k g, (m.redefinersAt v d k g).Nodup) ∧
    (m.scope v d).entries = (m.unhiddenEntries v d).filter
      (fun e => ¬ ∃ k, (m.redefinersAt v d k e.element).length = 1) ∧
    ∃ pairs : List (Nat × ElementId), pairs.Nodup ∧
      (∀ k g, (k, g) ∈ pairs ↔ 2 ≤ (m.redefinersAt v d k g).length) ∧
      (m.scope v d).diagnostics =
        pairs.flatMap fun p => m.clashes p.2 (m.redefinersAt v d p.1 p.2) := by
  have hcoherent : Coherent m := h.coherent
  refine ⟨fun t n => mem_distances_iff hcoherent, fun t => exists_mem_distances_iff hcoherent,
    fun k g r => mem_redefinersAt_iff, fun k g => (sitesAt_nodup hcoherent).filter _, ?_,
    m.contested v d, contested_nodup m v d, fun k g => mem_contested_iff hcoherent, ?_⟩
  · rw [scope, if_pos hd]
    refine List.filter_congr fun e _ => ?_
    rw [Bool.eq_iff_iff, Bool.not_eq_true', List.contains_eq_mem, decide_eq_false_iff_not,
      mem_hidden_iff hcoherent, decide_eq_true_eq]
  · rw [scope, if_pos hd]
    exact ambiguities_groups hcoherent

/-- A class that specializes another one directly, and also by way of a third one through which it is
found first. Both redefine a feature of what they specialize themselves. -/
def shortcut : Model :=
  performAll { library := .empty }
    [.addRoot { metaclass := .klass, name := some "A" },
      .add ⟨0⟩ { metaclass := .feature, name := some "x" },
      .add ⟨0⟩ { metaclass := .feature, name := some "y" },
      .addRoot { metaclass := .klass, name := some "B" },
      .add ⟨3⟩ { metaclass := .feature, name := some "f" },
      .addRoot { metaclass := .klass, name := some "C" },
      .add ⟨5⟩ { metaclass := .feature, name := some "g" },
      .add ⟨5⟩ { metaclass := .feature, name := some "h" },
      .addRoot { metaclass := .klass, name := some "D" },
      .request ⟨3⟩ { target := .element ⟨5⟩, kind := .subclassification },
      .request ⟨5⟩ { target := .element ⟨0⟩, kind := .subclassification },
      .request ⟨8⟩ { target := .element ⟨3⟩, kind := .subclassification },
      .request ⟨8⟩ { target := .element ⟨5⟩, kind := .subclassification },
      .request ⟨4⟩ { target := .element ⟨1⟩, kind := .redefinition },
      .request ⟨6⟩ { target := .element ⟨1⟩, kind := .redefinition },
      .request ⟨7⟩ { target := .element ⟨2⟩, kind := .redefinition },
      .link]

theorem scope_redefinitions_shortcut :
    shortcut.Reachable ∧ shortcut.contains ⟨8⟩ ∧
    (shortcut.scopeAncestors .inside ⟨8⟩).map (·.element) = [⟨3⟩, ⟨5⟩, ⟨0⟩] ∧
    shortcut.distances .inside ⟨8⟩ = [(⟨8⟩, 0), (⟨3⟩, 1), (⟨5⟩, 1), (⟨0⟩, 2)] ∧
    shortcut.IsDistance .inside ⟨8⟩ 1 ⟨5⟩ ∧
    (shortcut.unhiddenEntries .inside ⟨8⟩).map (·.element) =
      [⟨8⟩, ⟨3⟩, ⟨4⟩, ⟨5⟩, ⟨6⟩, ⟨7⟩, ⟨0⟩, ⟨1⟩, ⟨2⟩] ∧
    (shortcut.scope .inside ⟨8⟩).elements = [⟨8⟩, ⟨3⟩, ⟨4⟩, ⟨5⟩, ⟨6⟩, ⟨7⟩, ⟨0⟩, ⟨1⟩] ∧
    (shortcut.scope .inside ⟨8⟩).diagnostics = [shortcut.redefinedTwice ⟨1⟩ ⟨4⟩ ⟨6⟩] ∧
    ∃ pairs : List (Nat × ElementId), pairs.Nodup ∧
      (∀ k g, (k, g) ∈ pairs ↔ 2 ≤ (shortcut.redefinersAt .inside ⟨8⟩ k g).length) ∧
      (shortcut.scope .inside ⟨8⟩).diagnostics =
        pairs.flatMap fun p =>
          shortcut.clashes p.2 (shortcut.redefinersAt .inside ⟨8⟩ p.1 p.2) := by
  have hreachable : shortcut.Reachable := (Reachable.empty .empty).performAll _
  have hknown : shortcut.contains ⟨8⟩ := by decide +kernel
  have hfar : shortcut.distances .inside ⟨8⟩ = [(⟨8⟩, 0), (⟨3⟩, 1), (⟨5⟩, 1), (⟨0⟩, 2)] := by cbv
  have hgroups : groups (shortcut.redefinitions .inside ⟨8⟩) =
      [⟨⟨1⟩, [⟨4⟩, ⟨6⟩]⟩, ⟨⟨2⟩, [⟨7⟩]⟩] := by cbv
  have hvisible : (shortcut.unhiddenEntries .inside ⟨8⟩).map (·.element) =
      [⟨8⟩, ⟨3⟩, ⟨4⟩, ⟨5⟩, ⟨6⟩, ⟨7⟩, ⟨0⟩, ⟨1⟩, ⟨2⟩] := by cbv
  have helements : (shortcut.scope .inside ⟨8⟩).elements =
      [⟨8⟩, ⟨3⟩, ⟨4⟩, ⟨5⟩, ⟨6⟩, ⟨7⟩, ⟨0⟩, ⟨1⟩] := by
    have hfilter : ((shortcut.unhiddenEntries .inside ⟨8⟩).map (·.element)).filter
        (fun t => !([⟨2⟩] : List ElementId).contains t) = (shortcut.scope .inside ⟨8⟩).elements := by
      have hhidden : (([⟨⟨1⟩, [⟨4⟩, ⟨6⟩]⟩, ⟨⟨2⟩, [⟨7⟩]⟩] : List RedefinitionGroup).filter
          (·.isUnique)).map (·.redefined) = [⟨2⟩] := rfl
      rw [Scope.elements, scope, if_pos hknown, hgroups, List.filter_map]
      simp only [hhidden, Function.comp_def]
    rw [← hfilter, hvisible]
    decide
  have hreports : (shortcut.scope .inside ⟨8⟩).diagnostics =
      [shortcut.redefinedTwice ⟨1⟩ ⟨4⟩ ⟨6⟩] := by
    rw [scope, if_pos hknown, hgroups]
    rfl
  obtain ⟨hdistances, -, -, -, -, hpairs⟩ := scope_redefinitions hreachable .inside hknown
  have hnear : shortcut.IsDistance .inside ⟨8⟩ 1 ⟨5⟩ := by
    rw [← hdistances, hfar]
    decide
  exact ⟨hreachable, hknown, by cbv, hfar, hnear, hvisible, helements, hreports, hpairs⟩

end Kerml.Model
