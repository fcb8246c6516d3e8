import Kerml.Proofs.Link.Names
import Kerml.Proofs.Reachable
import Mathlib.Logic.Function.Iterate
import Mathlib.Logic.Relation

/-!
# Chains along which unnamed features take their names

Each feature on a chain has no name of its own and is followed by the first declaration that it
redefines. What a chain leads to does not depend on how the passes over the declarations go.
-/
namespace Kerml.Model

open Relation

variable {m n : Model} {d e t : ElementId} {ds : List ElementId} {k : Nat} {name : String}

def IsUnnamed (m : Model) (d : ElementId) : Prop :=
  (m.metaclass d).isFeature ∧ m.declaredName d = none

/-- The first declaration that a declaration redefines. -/
def firstRedefined? (m : Model) (d : ElementId) : Option ElementId :=
  ((m.specializationsOf d .redefinition).head?).map (·.general)

instance : Decidable (m.IsUnnamed d) :=
  inferInstanceAs (Decidable (_ ∧ _))

def IsNamedAfter (m : Model) (d t : ElementId) : Prop :=
  m.IsUnnamed d ∧ m.firstRedefined? d = some t

instance : Decidable (m.IsNamedAfter d t) :=
  inferInstanceAs (Decidable (_ ∧ _))

theorem isNamedAfter_iff_of_head {s : Specialization}
    (hs : (m.specializationsOf d .redefinition).head? = some s) :
    m.IsNamedAfter d t ↔ m.IsUnnamed d ∧ s.general = t := by
  rw [IsNamedAfter, firstRedefined?, hs, Option.map_some, Option.some_inj]

/-- A name is declared or comes from the declaration that comes next. -/
theorem goesBy_iff : m.GoesBy d name ↔
    m.declaredName d = some name ∨ ∃ t, m.IsNamedAfter d t ∧ m.GoesBy t name := by
  constructor
  · intro h
    cases h with
    | declared hname => exact Or.inl hname
    | redefined hfeature hnone hs hgeneral =>
      exact Or.inr ⟨_, (isNamedAfter_iff_of_head hs).2 ⟨⟨hfeature, hnone⟩, rfl⟩, hgeneral⟩
  · rintro (hname | ⟨t, ⟨⟨hfeature, hnone⟩, hfirst⟩, hgeneral⟩)
    · exact .declared hname
    · obtain ⟨s, hs, rfl⟩ := Option.map_eq_some_iff.1 hfirst
      exact .redefined hfeature hnone hs hgeneral

theorem goesBy_iff_of_isUnnamed (hd : m.IsUnnamed d) :
    m.GoesBy d name ↔ ∃ t, m.IsNamedAfter d t ∧ m.GoesBy t name := by
  rw [goesBy_iff, hd.2]
  simp

theorem IsNamedAfter.unique (h : m.IsNamedAfter d t) (h' : m.IsNamedAfter d e) : t = e :=
  Option.some.inj (h.2.symm.trans h'.2)

theorem IsNamedAfter.goesBy_iff (h : m.IsNamedAfter d t) : m.GoesBy d name ↔ m.GoesBy t name := by
  rw [goesBy_iff_of_isUnnamed h.1]
  constructor
  · rintro ⟨u, hnext, hgoes⟩
    rwa [h.unique hnext]
  · exact fun hgoes => ⟨t, h, hgoes⟩

theorem goesBy_iff_of_chain (h : ReflTransGen m.IsNamedAfter d t) :
    m.GoesBy d name ↔ m.GoesBy t name := by
  induction h with
  | refl => exact Iff.rfl
  | tail _ hlast ih => exact ih.trans hlast.goesBy_iff

/-- A declaration goes by the name that its chain ends with. -/
theorem goesBy_iff_exists_chain : m.GoesBy d name ↔
    ∃ t, ReflTransGen m.IsNamedAfter d t ∧ m.declaredName t = some name := by
  constructor
  · intro h
    induction h with
    | declared hname => exact ⟨_, .refl, hname⟩
    | redefined hfeature hnone hs _ ih =>
      obtain ⟨t, hchain, hname⟩ := ih
      exact ⟨t, .head ((isNamedAfter_iff_of_head hs).2 ⟨⟨hfeature, hnone⟩, rfl⟩) hchain, hname⟩
  · rintro ⟨t, hchain, hname⟩
    exact (goesBy_iff_of_chain hchain).2 (.declared hname)

private theorem not_goesBy_of_cycle (h : TransGen m.IsNamedAfter t t) : ¬ m.GoesBy t name := by
  intro hgoes
  obtain ⟨e, hchain, hname⟩ := goesBy_iff_exists_chain.1 hgoes
  -- Every declaration on the chain lies on the cycle, so its end has no name of its own.
  have hcycle : TransGen m.IsNamedAfter e e := by
    clear hname
    induction hchain with
    | refl => exact h
    | tail _ hlast ih =>
      obtain ⟨u, hnext, hback⟩ := TransGen.head'_iff.1 ih
      rw [hlast.unique hnext]
      exact .tail' hback hnext
  obtain ⟨u, hnext, -⟩ := TransGen.head'_iff.1 hcycle
  simp [hnext.1.2] at hname

private theorem not_goesBy_of_end (hnone : m.declaredName t = none) (hend : ∀ u, ¬ m.IsNamedAfter t u) :
    ¬ m.GoesBy t name := by
  rw [goesBy_iff, hnone]
  rintro (hname | ⟨u, hnext, -⟩)
  · cases hname
  · exact hend u hnext

/-- The model after a number of passes over the declarations. -/
def passes (m : Model) (ds : List ElementId) (k : Nat) : Model :=
  (fun n => takeNamesOnce n ds)^[k] m

/-- The passes end with one that changes nothing. Each of those before it names a feature, so that
there are no more of them than nameless features. -/
theorem exists_passes_eq_takeNames (m : Model) (ds : List ElementId) :
    ∃ k ≤ m.namelessCount, m.takeNames ds = m.passes ds k ∧
      m.passes ds (k + 1) = m.passes ds k ∧
      ∀ j < k, (m.passes ds (j + 1)).namelessCount < (m.passes ds j).namelessCount := by
  fun_induction takeNames m ds with
  | case1 m next hless ih =>
    obtain ⟨k, hk, htaken, hstable, hprogress⟩ := ih
    refine ⟨k + 1, Nat.lt_of_le_of_lt hk hless, htaken, hstable, ?_⟩
    intro j hj
    cases j with
    | zero => exact hless
    | succ j => exact hprogress j (Nat.lt_of_succ_lt_succ hj)
  | case2 m next hsettled =>
    have hsame : m.takeNamesOnce ds = m := ((takeNamesOnce_progress m ds).resolve_left hsettled).1
    exact ⟨0, Nat.zero_le _, hsame, hsame, fun j hj => absurd hj (Nat.not_lt_zero j)⟩

/-- The passes over all declarations, in any order, name the unnamed features as their chains say
and nothing else. -/
theorem TakesRightly.takenNames_takeNames (h : m.TakesRightly)
    (hall : ∀ d, m.contains d → d ∈ ds) :
    (m.takeNames ds).takenNames.get d = some name ↔ m.IsUnnamed d ∧ m.GoesBy d name := by
  have hedges := takeNames_sameEdges m ds
  have hgoes : ∀ e other, (m.takeNames ds).GoesBy e other ↔ m.GoesBy e other := fun e other =>
    ⟨fun he => he.of_sameEdges hedges.symm, fun he => he.of_sameEdges hedges⟩
  constructor
  · intro htaken
    obtain ⟨hfeature, hnone, hname⟩ := h.takeNames ds d name htaken
    rw [hedges.forest] at hfeature hnone
    exact ⟨⟨hfeature, hnone⟩, (hgoes d name).1 hname⟩
  · rintro ⟨⟨-, hnone⟩, hname⟩
    have hcovered : ∀ e, (m.takeNames ds).isNameless e → e ∈ ds := by
      intro e he
      have hknown := Forest.mem_ids_iff.1 (mem_ids_of_isNameless he)
      rw [hedges.forest] at hknown
      exact hall e hknown
    have heffective := ((h.takeNames ds).effectiveName_eq_some_iff (stuck_takeNames m ds)
      hcovered).2 ((hgoes d name).2 hname)
    rwa [effectiveName, hedges.forest, hnone, Option.none_or] at heffective

private theorem not_generalKind_includes_redefinition (c : Metaclass) :
    ¬ c.generalKind.includes .redefinition := by
  cases c <;> decide

private theorem matching_foldl_record {held es : List Specialization} {query : SpecializationKind}
    (hes : ∀ s ∈ es, ¬ s.kind.includes query) :
    Specialization.matching (es.foldl Specialization.record held) query =
      Specialization.matching held query := by
  induction es generalizing held with
  | nil => rfl
  | cons s es ih =>
    obtain ⟨hs, hes⟩ := List.forall_mem_cons.1 hes
    rw [List.foldl_cons, ih hes, Specialization.record]
    split
    · rfl
    · simp [Specialization.matching, hs]

/-- The supertypes that the library implies are no redefinitions. -/
theorem specializationsOf_addSupertypes (m : Model) (d e : ElementId) :
    (m.addSupertypes d).specializationsOf e .redefinition =
      m.specializationsOf e .redefinition := by
  by_cases hd : m.isType d
  · rw [specializationsOf, addSupertypes_get hd]
    split
    · rename_i hde
      subst hde
      refine matching_foldl_record fun s hs => ?_
      obtain ⟨r, -, himplied⟩ := List.mem_filterMap.1 hs
      rw [kind_of_implied? himplied]
      exact not_generalKind_includes_redefinition _
    · rfl
  · rw [addSupertypes_of_not_isType hd]

private theorem specializationsOf_link (m : Model) (d : ElementId) :
    m.link.specializationsOf d .redefinition = m.requested.specializationsOf d .redefinition := by
  have hcomplete : m.complete.specializationsOf d .redefinition =
      m.named.specializationsOf d .redefinition :=
    List.foldlRecOn (motive := fun n : Model => n.specializationsOf d .redefinition =
        m.named.specializationsOf d .redefinition) m.preorder addSupertypes rfl
      fun n hn e _ => (specializationsOf_addSupertypes n e d).trans hn
  calc m.link.specializationsOf d .redefinition
      = m.complete.specializationsOf d .redefinition := by
        rw [specializationsOf, link_get, specializationsOf]
    _ = m.named.specializationsOf d .redefinition := hcomplete
    _ = m.requested.specializationsOf d .redefinition := by
        rw [specializationsOf, (named_sameEdges m).specializations, specializationsOf]

private theorem isNamedAfter_link (m : Model) : m.link.IsNamedAfter = m.requested.IsNamedAfter := by
  funext d t
  rw [IsNamedAfter, IsUnnamed, firstRedefined?, specializationsOf_link, link_forest,
    IsNamedAfter, IsUnnamed, firstRedefined?, (requested_sameNames m).forest]
  rfl

private theorem goesBy_link_iff : m.link.GoesBy d name ↔ m.requested.GoesBy d name := by
  rw [goesBy_iff_exists_chain, goesBy_iff_exists_chain, isNamedAfter_link, link_forest,
    (requested_sameNames m).forest]
  rfl

/-- The names that linking gives are those that the chains lead to, in whichever order the passes
take the declarations. -/
theorem takenNames_linked (hall : ∀ d, m.contains d → d ∈ ds) :
    (m.requested.takeNames ds).takenNames.get d = some name ↔
      m.link.IsUnnamed d ∧ m.link.GoesBy d name := by
  have hright : m.requested.TakesRightly := by
    intro e other htaken
    rw [(requested_sameNames m).takenNames] at htaken
    cases htaken
  have hknown : ∀ e, m.requested.contains e → e ∈ ds := by
    intro e he
    rw [(requested_sameNames m).forest] at he
    exact hall e he
  rw [hright.takenNames_takeNames hknown, goesBy_link_iff, IsUnnamed, IsUnnamed, link_forest,
    (requested_sameNames m).forest]
  rfl

theorem takenNames_link_iff (h : m.WellFormed) :
    m.link.takenNames.get d = some name ↔ m.link.IsUnnamed d ∧ m.link.GoesBy d name := by
  rw [(link_sameNames m).takenNames]
  exact takenNames_linked fun e he => h.mem_preorder_iff.2 he

private theorem takenNames_link_iff_chain (h : m.WellFormed) (hd : m.link.IsUnnamed d) :
    m.link.takenNames.get d = some name ↔
      ∃ t, ReflTransGen m.link.IsNamedAfter d t ∧ m.link.declaredName t = some name := by
  rw [takenNames_link_iff h, and_iff_right hd, goesBy_iff_exists_chain]

private theorem takenNames_link_of_not_isUnnamed (h : m.WellFormed) (hd : ¬ m.link.IsUnnamed d) :
    m.link.takenNames.get d = none :=
  Option.eq_none_iff_forall_ne_some.2 fun _ htaken => hd ((takenNames_link_iff h).1 htaken).1

/-- A chain that runs into a cycle, or ends without a name, gives none. -/
theorem takenNames_link_eq_none (h : m.WellFormed) (hchain : ReflTransGen m.link.IsNamedAfter d t)
    (hlost : TransGen m.link.IsNamedAfter t t ∨
      m.link.declaredName t = none ∧ ∀ u, ¬ m.link.IsNamedAfter t u) :
    m.link.takenNames.get d = none := by
  refine Option.eq_none_iff_forall_ne_some.2 fun name htaken => ?_
  have hgoes : m.link.GoesBy t name :=
    (goesBy_iff_of_chain hchain).1 ((takenNames_link_iff h).1 htaken).2
  rcases hlost with hcycle | ⟨hnone, hend⟩
  · exact not_goesBy_of_cycle hcycle hgoes
  · exact not_goesBy_of_end hnone hend hgoes

/-- Names for the unnamed features, each that of the first declaration that the feature redefines,
and for nothing else. -/
def SolvesNames (m : Model) (names : ElementId → Option String) : Prop :=
  ∀ d name, names d = some name ↔
    ∃ t, m.IsNamedAfter d t ∧ (m.declaredName t).or (names t) = some name

private theorem effectiveName_link_iff (h : m.WellFormed) :
    m.link.effectiveName d = some name ↔ m.link.GoesBy d name := by
  rw [effectiveName, Option.or_eq_some_iff, takenNames_link_iff h]
  constructor
  · rintro (hname | ⟨-, -, hgoes⟩)
    · exact .declared hname
    · exact hgoes
  · intro hgoes
    rcases goesBy_iff.1 hgoes with hname | ⟨t, hnext, -⟩
    · exact Or.inl hname
    · exact Or.inr ⟨hnext.1.2, hnext.1, hgoes⟩

private theorem solvesNames_link (h : m.WellFormed) : m.link.SolvesNames m.link.takenNames.get := by
  intro d name
  change _ ↔ ∃ t, m.link.IsNamedAfter d t ∧ m.link.effectiveName t = some name
  simp only [takenNames_link_iff h, effectiveName_link_iff h]
  constructor
  · rintro ⟨hd, hgoes⟩
    exact (goesBy_iff_of_isUnnamed hd).1 hgoes
  · rintro ⟨t, hnext, hgoes⟩
    exact ⟨hnext.1, hnext.goesBy_iff.2 hgoes⟩

/-- Every solution has the names that the chains lead to. -/
theorem SolvesNames.of_goesBy {names : ElementId → Option String} (h : m.SolvesNames names)
    (hd : m.GoesBy d name) : (m.declaredName d).or (names d) = some name := by
  obtain ⟨t, hchain, hname⟩ := goesBy_iff_exists_chain.1 hd
  clear hd
  induction hchain using ReflTransGen.head_induction_on with
  | refl => rw [hname, Option.some_or]
  | head hnext _ ih =>
    rw [hnext.1.2, Option.none_or, h]
    exact ⟨_, hnext, ih⟩

private theorem SolvesNames.of_takenNames_link {names : ElementId → Option String}
    (h : m.link.SolvesNames names) (hm : m.WellFormed)
    (hd : m.link.takenNames.get d = some name) : names d = some name := by
  obtain ⟨⟨-, hnone⟩, hgoes⟩ := (takenNames_link_iff hm).1 hd
  have hname := h.of_goesBy hgoes
  rwa [hnone, Option.none_or] at hname

/-- The declarations of a model in other places of another one, with the same names and the same
first redefinitions. -/
structure Rearranges (m n : Model) (place : ElementId → ElementId) : Prop where
  isFeature_eq : ∀ d, m.contains d → (n.metaclass (place d)).isFeature = (m.metaclass d).isFeature
  declaredName_eq : ∀ d, m.contains d → n.declaredName (place d) = m.declaredName d
  firstRedefined?_eq : ∀ d, m.contains d →
    n.firstRedefined? (place d) = (m.firstRedefined? d).map place

namespace Rearranges

variable {place : ElementId → ElementId}

theorem isNamedAfter_iff (h : Rearranges m n place) (hd : m.contains d) :
    n.IsNamedAfter (place d) e ↔ ∃ t, m.IsNamedAfter d t ∧ place t = e := by
  simp only [IsNamedAfter, IsUnnamed, h.isFeature_eq d hd, h.declaredName_eq d hd,
    h.firstRedefined?_eq d hd, Option.map_eq_some_iff, and_assoc, exists_and_left]

theorem chain_iff (h : Rearranges m n place)
    (hknown : ∀ d t, m.IsNamedAfter d t → m.contains t) (hd : m.contains d) :
    ReflTransGen n.IsNamedAfter (place d) e ↔
      ∃ t, m.contains t ∧ ReflTransGen m.IsNamedAfter d t ∧ place t = e := by
  constructor
  · intro hchain
    induction hchain with
    | refl => exact ⟨d, hd, .refl, rfl⟩
    | tail _ hlast ih =>
      obtain ⟨t, ht, hbefore, rfl⟩ := ih
      obtain ⟨u, hafter, rfl⟩ := (h.isNamedAfter_iff ht).1 hlast
      exact ⟨u, hknown t u hafter, hbefore.tail hafter, rfl⟩
  · rintro ⟨t, -, hchain, rfl⟩
    induction hchain using ReflTransGen.head_induction_on with
    | refl => exact .refl
    | head hfirst _ ih =>
      have hnext := hknown _ _ hfirst
      exact .head ((h.isNamedAfter_iff hd).2 ⟨_, hfirst, rfl⟩) (ih hnext)

theorem goesBy_iff (h : Rearranges m n place)
    (hknown : ∀ d t, m.IsNamedAfter d t → m.contains t) (hd : m.contains d) :
    n.GoesBy (place d) name ↔ m.GoesBy d name := by
  rw [goesBy_iff_exists_chain, goesBy_iff_exists_chain]
  constructor
  · rintro ⟨e, hchain, hname⟩
    obtain ⟨t, ht, hbefore, rfl⟩ := (h.chain_iff hknown hd).1 hchain
    exact ⟨t, hbefore, (h.declaredName_eq t ht).symm.trans hname⟩
  · rintro ⟨t, hchain, hname⟩
    have ht : m.contains t := by
      rcases ReflTransGen.cases_tail hchain with rfl | ⟨u, -, hlast⟩
      · exact hd
      · exact hknown u t hlast
    exact ⟨place t, (h.chain_iff hknown hd).2 ⟨t, ht, hchain, rfl⟩,
      (h.declaredName_eq t ht).trans hname⟩

/-- Features take the same names wherever they are declared. -/
theorem takenNames_link (h : Rearranges m.link n.link place) (hm : Coherent m) (hn : Coherent n)
    (hd : m.contains d) : n.link.takenNames.get (place d) = m.link.takenNames.get d := by
  have hlinked : m.link.contains d := by rwa [link_forest]
  have hknown : ∀ d t, m.link.IsNamedAfter d t → m.link.contains t := by
    rintro d t ⟨-, hfirst⟩
    obtain ⟨s, hs, rfl⟩ := Option.map_eq_some_iff.1 hfirst
    exact hm.link.contains_general (List.mem_filter.1 (List.mem_of_mem_head? hs)).1
  refine Option.ext fun name => ?_
  rw [takenNames_link_iff hn.forest, takenNames_link_iff hm.forest, h.goesBy_iff hknown hlinked,
    IsUnnamed, IsUnnamed, h.isFeature_eq d hlinked, h.declaredName_eq d hlinked]

end Rearranges

/-- Linking takes names in finitely many passes, of which only the last one changes nothing. A
feature without a name of its own gets the name that its chain of redefinitions ends with, and none
if the chain has no end or ends without a name. Everything else gets none. These names are the least
solution, whatever the order of the passes and of the declarations. -/
theorem link_takes_least_names (h : m.Reachable) :
    (∃ k ≤ m.requested.namelessCount,
      m.named = m.requested.passes m.preorder k ∧
      m.requested.passes m.preorder (k + 1) = m.requested.passes m.preorder k ∧
      ∀ j < k, (m.requested.passes m.preorder (j + 1)).namelessCount <
        (m.requested.passes m.preorder j).namelessCount) ∧
    (∀ d, m.link.IsUnnamed d → ∀ name, m.link.takenNames.get d = some name ↔
      ∃ t, ReflTransGen m.link.IsNamedAfter d t ∧ m.link.declaredName t = some name) ∧
    (∀ d t, ReflTransGen m.link.IsNamedAfter d t →
      (TransGen m.link.IsNamedAfter t t ∨
        m.link.declaredName t = none ∧ ∀ u, ¬ m.link.IsNamedAfter t u) →
      m.link.takenNames.get d = none) ∧
    (∀ d, ¬ m.link.IsUnnamed d → m.link.takenNames.get d = none) ∧
    (m.link.SolvesNames m.link.takenNames.get ∧
      ∀ names, m.link.SolvesNames names →
        ∀ d name, m.link.takenNames.get d = some name → names d = some name) ∧
    (∀ ds, (∀ d, m.contains d → d ∈ ds) →
      ∀ d, (m.requested.takeNames ds).takenNames.get d = m.link.takenNames.get d) ∧
    ∀ (n : Model) place, n.Reachable → Rearranges m.link n.link place →
      ∀ d, m.contains d → n.link.takenNames.get (place d) = m.link.takenNames.get d := by
  have hforest : m.WellFormed := h.coherent.forest
  refine ⟨exists_passes_eq_takeNames m.requested m.preorder, ?_, ?_, ?_, ?_, ?_, ?_⟩
  · intro d hd name
    exact takenNames_link_iff_chain hforest hd
  · intro d t hchain hlost
    exact takenNames_link_eq_none hforest hchain hlost
  · intro d hd
    exact takenNames_link_of_not_isUnnamed hforest hd
  · refine ⟨solvesNames_link hforest, fun names hnames d name hd => ?_⟩
    exact hnames.of_takenNames_link hforest hd
  · intro ds hall d
    refine Option.ext fun name => ?_
    rw [takenNames_linked hall, takenNames_link_iff hforest]
  · intro n place hn hplace d hd
    exact hplace.takenNames_link h.coherent hn.coherent hd

/-- Unnamed features that redefine one that comes later, one that comes before, each other, and a
class. -/
def chainedFeatures : Model :=
  performAll { library := .empty }
    [.addRoot { metaclass := .klass, name := some "A" },
      .add ⟨0⟩ { metaclass := .feature, name := some "x" },
      .addRoot { metaclass := .klass, name := some "B" },
      .add ⟨2⟩ { metaclass := .feature },
      .addRoot { metaclass := .klass, name := some "C" },
      .add ⟨4⟩ { metaclass := .feature },
      .add ⟨4⟩ { metaclass := .feature },
      .add ⟨4⟩ { metaclass := .feature },
      .add ⟨4⟩ { metaclass := .feature },
      .request ⟨3⟩ { target := .element ⟨5⟩, kind := .redefinition },
      .request ⟨5⟩ { target := .element ⟨1⟩, kind := .redefinition },
      .request ⟨6⟩ { target := .element ⟨7⟩, kind := .redefinition },
      .request ⟨7⟩ { target := .element ⟨6⟩, kind := .redefinition },
      .request ⟨8⟩ { target := .element ⟨0⟩, kind := .redefinition }]

def rotatedFeatures : Model :=
  performAll { library := .empty }
    [.addRoot { metaclass := .klass, name := some "C" },
      .add ⟨0⟩ { metaclass := .feature },
      .add ⟨0⟩ { metaclass := .feature },
      .add ⟨0⟩ { metaclass := .feature },
      .add ⟨0⟩ { metaclass := .feature },
      .addRoot { metaclass := .klass, name := some "A" },
      .add ⟨5⟩ { metaclass := .feature, name := some "x" },
      .addRoot { metaclass := .klass, name := some "B" },
      .add ⟨7⟩ { metaclass := .feature },
      .request ⟨8⟩ { target := .element ⟨1⟩, kind := .redefinition },
      .request ⟨1⟩ { target := .element ⟨6⟩, kind := .redefinition },
      .request ⟨2⟩ { target := .element ⟨3⟩, kind := .redefinition },
      .request ⟨3⟩ { target := .element ⟨2⟩, kind := .redefinition },
      .request ⟨4⟩ { target := .element ⟨5⟩, kind := .redefinition }]

def rotatedPlace (d : ElementId) : ElementId :=
  ⟨(d.index + 5) % 9⟩

private theorem rearranges_rotatedFeatures :
    Rearranges chainedFeatures.link rotatedFeatures.link rotatedPlace := by
  have hall : ∀ d ∈ chainedFeatures.link.ids,
      (rotatedFeatures.link.metaclass (rotatedPlace d)).isFeature =
        (chainedFeatures.link.metaclass d).isFeature ∧
      rotatedFeatures.link.declaredName (rotatedPlace d) = chainedFeatures.link.declaredName d ∧
      rotatedFeatures.link.firstRedefined? (rotatedPlace d) =
        (chainedFeatures.link.firstRedefined? d).map rotatedPlace := by decide +kernel
  exact
    { isFeature_eq := fun d hd => (hall d (Forest.mem_ids_iff.2 hd)).1
      declaredName_eq := fun d hd => (hall d (Forest.mem_ids_iff.2 hd)).2.1
      firstRedefined?_eq := fun d hd => (hall d (Forest.mem_ids_iff.2 hd)).2.2 }

/-- The first unnamed feature takes its name from the one that comes later, in both orders. -/
theorem link_takes_least_names_chainedFeatures :
    chainedFeatures.Reachable ∧ rotatedFeatures.Reachable ∧
    chainedFeatures.link.takenNames.get ⟨3⟩ = some "x" ∧
    chainedFeatures.link.takenNames.get ⟨6⟩ = none ∧
    chainedFeatures.link.takenNames.get ⟨8⟩ = some "A" ∧
    chainedFeatures.link.takenNames.get ⟨1⟩ = none ∧
    rotatedFeatures.link.takenNames.get ⟨8⟩ = some "x" := by
  have hreachable : chainedFeatures.Reachable := (Reachable.empty .empty).performAll _
  have hrotated : rotatedFeatures.Reachable := (Reachable.empty .empty).performAll _
  obtain ⟨-, hnamed, hlost, hother, -, -, hplaced⟩ := link_takes_least_names hreachable
  have hlater : chainedFeatures.link.IsNamedAfter ⟨3⟩ ⟨5⟩ := by decide +kernel
  have hearlier : chainedFeatures.link.IsNamedAfter ⟨5⟩ ⟨1⟩ := by decide +kernel
  have hthere : chainedFeatures.link.IsNamedAfter ⟨6⟩ ⟨7⟩ := by decide +kernel
  have hback : chainedFeatures.link.IsNamedAfter ⟨7⟩ ⟨6⟩ := by decide +kernel
  have hclass : chainedFeatures.link.IsNamedAfter ⟨8⟩ ⟨0⟩ := by decide +kernel
  have hfirst : chainedFeatures.link.takenNames.get ⟨3⟩ = some "x" :=
    (hnamed ⟨3⟩ hlater.1 "x").2 ⟨⟨1⟩, .head hlater (.single hearlier), by decide +kernel⟩
  refine ⟨hreachable, hrotated, hfirst, ?_, ?_, ?_, ?_⟩
  · exact hlost ⟨6⟩ ⟨6⟩ .refl (Or.inl (.head hthere (.single hback)))
  · exact (hnamed ⟨8⟩ hclass.1 "A").2 ⟨⟨0⟩, .single hclass, by decide +kernel⟩
  · exact hother ⟨1⟩ (by decide +kernel)
  · have hplace := hplaced rotatedFeatures rotatedPlace hrotated rearranges_rotatedFeatures ⟨3⟩
      (by decide +kernel)
    exact hplace.trans hfirst

end Kerml.Model
