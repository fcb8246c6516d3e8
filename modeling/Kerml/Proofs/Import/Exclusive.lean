import Kerml.Proofs.Import.Preorder
import Kerml.Proofs.Reachable
import Mathlib

/-!
# Directives that leave out their target

The expansion of directives depends on the directives of a namespace only at its start, so that a
change to one of them shows only where its own steps are carried out.
-/
namespace Kerml

/-- The directive that leaves out its target and brings in what is below it. -/
def Import.exclusive (i : Import) : Import :=
  { i with shape := .recursiveExclusive }

namespace Forest

variable {f : Forest} {d : ElementId} {is : List Import}

def withImports (f : Forest) (d : ElementId) (is : List Import) : Forest :=
  f.modify d fun e => { e with imports := is }

private theorem imports_withImports_self (hd : f.contains d) : (f.withImports d is).imports d = is := by
  obtain ⟨e, he⟩ := exists_element?_of_contains hd
  simp [withImports, imports, element?_modify, he]

private theorem imports_withImports_of_ne {e : ElementId} (he : e ≠ d) :
    (f.withImports d is).imports e = f.imports e := by
  simp only [withImports, imports, element?_modify, if_neg he.symm]

theorem contains_of_imports_ne_nil (h : f.imports d ≠ []) : f.contains d := by
  by_contra hd
  exact h (by simp [imports, element?_eq_none hd])

end Forest

namespace Model

open ImportStep

variable {m n : Model} {d t : ElementId} {i : Import} {visited : List ElementId}
  {steps : List ImportStep} {is : List Import}

def withImports (m : Model) (d : ElementId) (is : List Import) : Model :=
  m.withForest (m.toForest.withImports d is)

/-- The steps that come first are carried out as if nothing came after them. -/
theorem exists_runSteps_append (m : Model) (visited : List ElementId) (steps : List ImportStep) :
    ∃ later, visited ⊆ later ∧
      ∀ rest, m.runSteps visited (steps ++ rest) =
        m.runSteps visited steps ++ m.runSteps later rest := by
  fun_induction runSteps m visited steps with
  | case1 visited => exact ⟨visited, List.Subset.refl _, fun rest => rfl⟩
  | case2 visited i steps ih =>
    obtain ⟨later, hlater, hrun⟩ := ih
    refine ⟨later, hlater, fun rest => ?_⟩
    rw [List.cons_append, runSteps, hrun, List.cons_append]
  | case3 visited e steps he ih =>
    obtain ⟨later, hlater, hrun⟩ := ih
    refine ⟨later, fun x hx => hlater (List.mem_cons_of_mem e hx), fun rest => ?_⟩
    rw [List.cons_append, runSteps, dif_pos he, ← List.append_assoc, hrun]
  | case4 visited e steps he ih =>
    obtain ⟨later, hlater, hrun⟩ := ih
    refine ⟨later, hlater, fun rest => ?_⟩
    rw [List.cons_append, runSteps, dif_neg he, hrun]

/-- A run does not depend on what is handed on by namespaces that were visited before. -/
theorem runSteps_congr (hcontains : ∀ e, n.contains e = m.contains e)
    (hhanded : ∀ e, e ∉ visited → n.publicImportSteps e = m.publicImportSteps e) :
    n.runSteps visited steps = m.runSteps visited steps := by
  fun_induction runSteps m visited steps with
  | case1 visited => rw [runSteps]
  | case2 visited i steps ih => rw [runSteps, ih hhanded]
  | case3 visited e steps he ih =>
    have hfresh : e ∉ visited := by simpa using he.2
    rw [runSteps, hcontains, dif_pos he, hhanded e hfresh]
    exact ih fun x hx => hhanded x fun hv => hx (List.mem_cons_of_mem e hv)
  | case4 visited e steps he ih => rw [runSteps, hcontains, dif_neg he, ih hhanded]

/-- Where nothing is handed on, a run brings in what its steps bring in by themselves. -/
theorem runSteps_of_forall_handing
    (hhanded : ∀ e ∈ steps.filterMap handing?, e ∉ visited → m.publicImportSteps e = []) :
    m.runSteps visited steps = steps.filterMap brought? := by
  fun_induction runSteps m visited steps with
  | case1 visited => rfl
  | case2 visited i steps ih => rw [ih hhanded]; rfl
  | case3 visited e steps he ih =>
    have hfresh : e ∉ visited := by simpa using he.2
    have hnone : m.publicImportSteps e = [] := hhanded e List.mem_cons_self hfresh
    rw [hnone, List.nil_append] at ih ⊢
    exact ih fun x hx hv => hhanded x (List.mem_cons_of_mem e hx) fun hx' =>
      hv (List.mem_cons_of_mem e hx')
  | case4 visited e steps he ih =>
    exact ih fun x hx hv => hhanded x (List.mem_cons_of_mem e hx) hv

private theorem samePlaces_withImports (hforest : n.toForest = m.toForest.withImports d is)
    (hnames : n.takenNames.get = m.takenNames.get) : SamePlaces m n := by
  have hdeclaration : n.declaration? = m.declaration? := funext fun e => by
    rw [hforest]
    exact Forest.declaration?_modify _ d e _ fun _ => rfl
  constructor
  · rw [hforest]
    exact Forest.size_modify _ d _
  · funext e
    rw [hforest]
    exact Forest.owner_modify _ d e _ fun _ => rfl
  · funext e
    rw [hforest]
    exact Forest.members_modify _ d e _ fun _ => rfl
  · rw [hforest]
    rfl
  · funext e
    rw [Forest.visibility, Forest.visibility, hdeclaration]
  · funext e
    rw [Forest.declaredName, Forest.declaredName, hdeclaration]
  · funext e
    rw [Forest.shortName, Forest.shortName, hdeclaration]
  · exact hnames

namespace SamePlaces

theorem contains (h : SamePlaces m n) (e : ElementId) : n.contains e = m.contains e := by
  rw [Forest.contains, Forest.contains, h.size]

theorem membersFor (h : SamePlaces m n) : n.membersFor = m.membersFor := by
  funext e a
  simp only [Forest.membersFor, h.members, h.visibility]

theorem publicSteps (h : SamePlaces m n) (e : ElementId) : n.publicSteps e = m.publicSteps e := by
  induction hi : m.size - e.index using Nat.strongRecOn generalizing e with
  | _ k ih =>
    rw [Model.publicSteps, Model.publicSteps, h.membersFor, h.size]
    congr 1
    refine List.flatMap_congr fun c _ => ?_
    split
    · rw [ih _ (by omega) c rfl]
    · rfl

theorem directiveSteps (h : SamePlaces m n) : n.directiveSteps = m.directiveSteps := by
  funext e j
  rw [Model.directiveSteps, Model.directiveSteps, h.importTarget?]
  cases m.importTarget? e j with
  | none => rfl
  | some t =>
    simp only [targetSteps, h.membersFor, h.publicSteps]

end SamePlaces

/-- What a declaration with other directives imports is found in the model as it is: none of its own
directives is handed on to it. -/
theorem imported_eq_of_withImports (hd : m.contains d)
    (hforest : n.toForest = m.toForest.withImports d is)
    (hnames : n.takenNames.get = m.takenNames.get) :
    n.imported d = m.runSteps [d] (is.flatMap (m.directiveSteps d)) := by
  have hplaces := samePlaces_withImports hforest hnames
  have hown : n.imports d = is := by rw [hforest, Forest.imports_withImports_self hd]
  rw [imported, ownSteps, hown, hplaces.directiveSteps]
  -- only `d` has other directives, and it counts as visited from the start
  refine runSteps_congr hplaces.contains fun e he => ?_
  have hne : e ≠ d := by simpa using he
  have hother : n.imports e = m.imports e := by
    rw [hforest, Forest.imports_withImports_of_ne hne]
  rw [publicImportSteps, publicImportSteps, hother, hplaces.directiveSteps]

theorem imported_withImports (hd : m.contains d) (is : List Import) :
    (m.withImports d is).imported d = m.runSteps [d] (is.flatMap (m.directiveSteps d)) :=
  imported_eq_of_withImports hd rfl rfl

theorem directiveSteps_exclusive (ht : m.importTarget? d i = some t) :
    m.directiveSteps d i.exclusive = m.publicSteps t := by
  have htarget : m.importTarget? d i.exclusive = some t := ht
  rw [directiveSteps, htarget]
  rfl

private theorem directiveSteps_recursive (ht : m.importTarget? d i = some t) (hi : i.shape = .recursive) :
    m.directiveSteps d i = bring t :: m.publicSteps t := by
  simp only [directiveSteps, ht, targetSteps, hi]

theorem directiveSteps_of_importTarget?_eq_none (ht : m.importTarget? d i = none) :
    m.directiveSteps d i = [] := by
  rw [directiveSteps, ht]

private theorem publicImportSteps_eq_nil {e : ElementId} (h : ∀ j ∈ m.imports e, ¬ j.isPublic) :
    m.publicImportSteps e = [] := by
  have hnone : (m.imports e).filter (·.isPublic) = [] := List.filter_eq_nil_iff.2 h
  rw [publicImportSteps, hnone, List.flatMap_nil]

/-- A walk on which nothing is handed on brings in what is publicly below its namespace, in the
order of the preorder. -/
theorem runSteps_publicSteps (h : m.WellFormed) (ht : m.contains t)
    (hnone : ∀ e, m.Exposes t e → e ∉ visited → ∀ j ∈ m.imports e, ¬ j.isPublic) :
    m.runSteps visited (m.publicSteps t) =
      (m.preorder.filter (m.isPubliclyBelow t)).map ({ element := · }) := by
  rw [← brought_publicSteps_eq_filter h ht]
  refine runSteps_of_forall_handing fun e he hv => ?_
  exact publicImportSteps_eq_nil (hnone e ((mem_handing_publicSteps h).1 he) hv)

/-- Let a recursive directive of a declaration be made one that leaves out its target. If it has a
target, that is left out once, where the share of the directive starts, and nothing else changes.
What the directive still brings in is the part of the preorder that is publicly below the target, if
no namespace that it walks through hands anything on. -/
theorem imported_exclusive (h : m.Reachable) {earlier later : List Import}
    (himports : m.imports d = earlier ++ i :: later) (hi : i.shape = .recursive)
    (hforest : n.toForest = m.toForest.withImports d (earlier ++ i.exclusive :: later))
    (hnames : n.takenNames.get = m.takenNames.get) :
    (m.importTarget? d i = none → n.imported d = m.imported d) ∧
    ∀ t, m.importTarget? d i = some t → ∃ own rest : List Imported,
      m.imported d = (m.withImports d earlier).imported d ++ { element := t } :: (own ++ rest) ∧
      n.imported d = (m.withImports d earlier).imported d ++ (own ++ rest) ∧
      (m.withImports d (earlier ++ [i.exclusive])).imported d =
        (m.withImports d earlier).imported d ++ own ∧
      ((∀ e, m.Exposes t e → e ≠ d → ∀ j ∈ m.imports e, ¬ j.isPublic) →
        own = (m.preorder.filter (m.isPubliclyBelow t)).map ({ element := · })) := by
  have hwell : m.WellFormed := h.coherent.forest
  have hd : m.contains d := Forest.contains_of_imports_ne_nil (by simp [himports])
  have hbefore := imported_withImports hd earlier
  have hafter := imported_eq_of_withImports hd hforest hnames
  have hbetween := imported_withImports hd (earlier ++ [i.exclusive])
  obtain ⟨reached, hreached, hearlier⟩ :=
    exists_runSteps_append m [d] (earlier.flatMap (m.directiveSteps d))
  simp only [List.flatMap_append, List.flatMap_cons, List.flatMap_nil, List.append_nil]
    at hafter hbetween
  have hwhole : m.imported d = m.runSteps [d] (earlier.flatMap (m.directiveSteps d) ++
      (m.directiveSteps d i ++ later.flatMap (m.directiveSteps d))) := by
    rw [imported, ownSteps, himports, List.flatMap_append, List.flatMap_cons]
  constructor
  · intro ht
    have hexclusive : m.importTarget? d i.exclusive = none := ht
    rw [hwhole, hafter, directiveSteps_of_importTarget?_eq_none ht,
      directiveSteps_of_importTarget?_eq_none hexclusive]
  · intro t ht
    obtain ⟨left, hleft, hwalk⟩ := exists_runSteps_append m reached (m.publicSteps t)
    refine ⟨m.runSteps reached (m.publicSteps t),
      m.runSteps left (later.flatMap (m.directiveSteps d)), ?_, ?_, ?_, fun hnone => ?_⟩
    · rw [hwhole, directiveSteps_recursive ht hi, hearlier, List.cons_append, bring, runSteps,
        hwalk, hbefore]
    · rw [hafter, directiveSteps_exclusive ht, hearlier, hwalk, hbefore]
    · rw [hbetween, directiveSteps_exclusive ht, hearlier, hbefore]
    · refine runSteps_publicSteps hwell (contains_of_importTarget? hwell ht) fun e he hv => ?_
      refine hnone e he ?_
      -- a walk that comes back to `d` is handed nothing there
      rintro rfl
      exact hv (hreached List.mem_cons_self)

/-- Two packages that import each other and hand on what they import, and a package with a class
that has a public and a private feature. A namespace imports the first and the third package in
shapes yet to be chosen, and then the members of the second one. -/
def handedAround (first second : ImportShape) : Model :=
  performAll { library := .empty }
    [.addRoot { metaclass := .package, name := some "A" },
      .addRoot { metaclass := .package, name := some "B" },
      .addRoot { metaclass := .package, name := some "P" },
      .addRoot { metaclass := .package, name := some "N" },
      .add ⟨0⟩ { metaclass := .klass, name := some "C" },
      .add ⟨1⟩ { metaclass := .klass, name := some "D" },
      .add ⟨2⟩ { metaclass := .klass, name := some "X" },
      .add ⟨6⟩ { metaclass := .feature, name := some "y" },
      .add ⟨6⟩ { metaclass := .feature, name := some "z", visibility := .priv },
      .addImport ⟨0⟩ { path := ["B"], shape := .recursive, visibility := .pub },
      .addImport ⟨1⟩ { path := ["A"], shape := .recursive, visibility := .pub },
      .addImport ⟨3⟩ { path := ["A"], shape := first },
      .addImport ⟨3⟩ { path := ["P"], shape := second },
      .addImport ⟨3⟩ { path := ["B"], shape := .wildcard }]

theorem imported_exclusive_handedAround :
    (handedAround .recursive .recursive).Reachable ∧
    ((handedAround .recursive .recursive).imported ⟨3⟩).map (·.element.index) =
      [0, 4, 1, 5, 0, 4, 2, 6, 7, 1, 5] ∧
    ((handedAround .recursiveExclusive .recursive).imported ⟨3⟩).map (·.element.index) =
      [4, 1, 5, 0, 4, 2, 6, 7, 1, 5] ∧
    (∃ own rest : List Imported,
      (handedAround .recursive .recursive).imported ⟨3⟩ = { element := ⟨0⟩ } :: (own ++ rest) ∧
      (handedAround .recursiveExclusive .recursive).imported ⟨3⟩ = own ++ rest) ∧
    ∃ own rest : List Imported,
      (handedAround .recursive .recursive).imported ⟨3⟩ =
        ((handedAround .recursive .recursive).withImports ⟨3⟩
          [{ path := ["A"], shape := .recursive }]).imported ⟨3⟩ ++
            { element := ⟨2⟩ } :: (own ++ rest) ∧
      (handedAround .recursive .recursiveExclusive).imported ⟨3⟩ =
        ((handedAround .recursive .recursive).withImports ⟨3⟩
          [{ path := ["A"], shape := .recursive }]).imported ⟨3⟩ ++ (own ++ rest) ∧
      own = [{ element := ⟨6⟩ }, { element := ⟨7⟩ }] := by
  have hreachable : (handedAround .recursive .recursive).Reachable :=
    (Reachable.empty .empty).performAll _
  have hfirst : (handedAround .recursive .recursive).imports ⟨3⟩ =
      [] ++ { path := ["A"], shape := .recursive } ::
        [{ path := ["P"], shape := .recursive }, { path := ["B"], shape := .wildcard }] := by cbv
  have hsecond : (handedAround .recursive .recursive).imports ⟨3⟩ =
      [{ path := ["A"], shape := .recursive }] ++ { path := ["P"], shape := .recursive } ::
        [{ path := ["B"], shape := .wildcard }] := by cbv
  have hnone : ((handedAround .recursive .recursive).withImports ⟨3⟩ []).imported ⟨3⟩ = [] := by cbv
  have hquiet : ∀ e, (handedAround .recursive .recursive).Exposes ⟨2⟩ e → e ≠ ⟨3⟩ →
      ∀ j ∈ (handedAround .recursive .recursive).imports e, ¬ j.isPublic := by
    intro e he _
    have hforest := hreachable.coherent.forest
    have hsubtree : (handedAround .recursive .recursive).subtree ⟨2⟩ =
        [⟨2⟩, ⟨6⟩, ⟨7⟩, ⟨8⟩] := by cbv
    have hmem := hforest.mem_subtree_iff.2 (hforest.within_of_exposes he)
    rw [hsubtree] at hmem
    have hall : ∀ e ∈ [⟨2⟩, ⟨6⟩, ⟨7⟩, ⟨8⟩],
        (handedAround .recursive .recursive).imports e = [] := by decide +kernel
    simp [hall e hmem]
  have hunlinked : ∀ first second, (handedAround first second).takenNames = ∅ := by
    intro first second
    cbv
  have hnames : ∀ first second, (handedAround first second).takenNames.get =
      (handedAround .recursive .recursive).takenNames.get := by
    intro first second
    rw [hunlinked, hunlinked]
  obtain ⟨own, rest, hwith, hwithout, -⟩ := (imported_exclusive hreachable hfirst rfl (by cbv)
    (hnames .recursiveExclusive .recursive)).2 ⟨0⟩ (by decide +kernel)
  obtain ⟨own', rest', hwith', hwithout', -, hown⟩ := (imported_exclusive hreachable hsecond rfl
    (by cbv) (hnames .recursive .recursiveExclusive)).2 ⟨2⟩ (by decide +kernel)
  rw [hnone, List.nil_append] at hwith hwithout
  refine ⟨hreachable, by cbv, by cbv, ⟨own, rest, hwith, hwithout⟩, own', rest', hwith', hwithout',
    ?_⟩
  rw [hown hquiet]
  cbv

end Model
end Kerml
