import Kerml.Proofs.QualifiedName.Remembered
import Kerml.Proofs.Scope.Lookup

/-!
# Qualified names that lead back to what they name

The path is followed by containment and through scopes, and on neither way can it be led astray.
-/
namespace Kerml

namespace Model

open QualifiedName

variable {m : Model} {c d o : ElementId} {name : String}

/-- A declaration at or below a global one that can be told apart all the way down. Each declaration
on the way has a name to which nothing else beside it answers, and below the global one each is
public and not redefined. -/
inductive Addressable (m : Model) (c : ElementId) : ElementId → Prop
  | top {name : String} (halone : m.NamedAlone m.globals name c) : Addressable m c c
  | member {o d : ElementId} {name : String} (howner : Addressable m c o)
      (halone : m.NamedAlone (m.members o) name d) (hpublic : m.visibility d = .pub)
      (hkept : ¬ m.IsRedefined d) : Addressable m c d

/-- What is visible at a declaration or at its owners under the name of another one is that one. -/
def Unshadowed (m : Model) (s c : ElementId) : Prop :=
  ∀ name, m.effectiveName c = some name →
    ∀ o ∈ m.ownerChain s, ∀ e ∈ (m.scope .inside o).lookup name, e.element = c

theorem globals_nodup (h : m.WellFormed) : m.globals.Nodup := by
  refine h.nodup_flatMap_roots (fun r => ?_) fun r d hd => ?_
  · split
    · exact List.nodup_singleton r
    · exact h.members_nodup r
  · split at hd
    · rw [List.mem_singleton.1 hd]
      exact .refl
    · exact .single (h.mem_members_iff.1 hd)

/-- No name is put before that of a global declaration. -/
theorem namesTo_of_mem_globals (h : m.WellFormed) (hc : c ∈ m.globals) :
    m.namesTo c = (m.effectiveName c).toList := by
  obtain ⟨r, hr, hc⟩ := List.mem_flatMap.1 hc
  have hroot : m.namesTo r = (m.effectiveName r).toList := by
    rw [namesTo_eq h, (h.mem_roots_iff.1 hr).2]
    rfl
  split at hc
  · rw [List.mem_singleton.1 hc, hroot]
  · rename_i hunnamed
    rw [namesTo_eq h, h.mem_members_iff.1 hc, Option.map_some, Option.getD_some, hroot,
      Option.not_isSome_iff_eq_none.1 hunnamed]
    rfl

private theorem resolveGlobal_eq_found (h : m.WellFormed) (hc : m.NamedAlone m.globals name c) :
    m.resolveGlobal name = .found c := by
  rw [resolveGlobal, hc.filter_eq (globals_nodup h)]
  rfl

/-- Going outward, a name reaches the global declaration, if on the way it stands for that or for
nothing. -/
theorem resolveOutward_eq_found {ds : List ElementId} (hglobal : m.resolveGlobal name = .found c)
    (hshown : ∀ o ∈ ds, ∀ e ∈ (m.scope .inside o).lookup name, e.element = c) :
    m.resolveOutward name ds = .found c := by
  induction ds with
  | nil => exact hglobal
  | cons o outer ih =>
    have houter := ih fun o' ho' => hshown o' (List.mem_cons_of_mem _ ho')
    rw [resolveOutward]
    rcases Scope.resolve_of_forall (elements_scope_nodup m .inside o)
      (hshown o List.mem_cons_self) with hnone | hfound
    · rw [hnone]
      exact houter
    · rw [hfound]

private theorem resolveBelow_concat {r : Resolution} {path : List String}
    (hpath : m.resolveBelow r path = .found o) :
    m.resolveBelow r (path ++ [name]) = (m.scope .outside o).resolve name := by
  induction path generalizing r with
  | nil =>
    obtain rfl : r = .found o := hpath
    rfl
  | cons first rest ih =>
    cases r with
    | found c => exact ih hpath
    | ambiguous ds => cases hpath
    | notFound => cases hpath

namespace Addressable

/-- Below the name of the global declaration, the names to a declaration are followed to it by
containment and through scopes. -/
theorem exists_path (h : m.WellFormed) (hd : m.Addressable c d) :
    ∃ path, m.namesTo d = m.namesTo c ++ path ∧ m.descend none c path = .found d ∧
      m.resolveBelow (.found c) path = .found d := by
  induction hd with
  | top => exact ⟨[], by rw [List.append_nil], rfl, rfl⟩
  | @member o d name _ halone hpublic hkept ih =>
    obtain ⟨path, hnames, hdescend, hresolve⟩ := ih
    refine ⟨path ++ [name], ?_, ?_, ?_⟩
    · rw [namesTo_eq h, h.mem_members_iff.1 halone.mem, halone.effectiveName_eq, Option.map_some,
        Option.getD_some, hnames, List.append_assoc, Option.toList_some]
    · refine descend_concat_eq_found_iff.2 ⟨o, hdescend, halone.find?_eq, ?_⟩
      rw [sees, hpublic]
      rfl
    · rw [resolveBelow_concat hresolve]
      exact resolve_scope_outside h halone hpublic hkept

private theorem exists_namedAlone (hd : m.Addressable c d) : ∃ name, m.NamedAlone m.globals name c := by
  induction hd with
  | top halone => exact ⟨_, halone⟩
  | member _ _ _ _ ih => exact ih

end Addressable

/-- The qualified name of an addressable declaration leads back to it. It does so by containment,
and through scopes wherever nothing takes the name of its global declaration. What the declarations
on the way import, inherit or call by another name does not matter. -/
theorem resolve?_qualifiedName (h : m.Reachable) (hd : m.Addressable c d) :
    m.find? (m.qualifiedName d) = some d ∧
    ∀ s, m.contains s → m.Unshadowed s c →
      m.resolve? s (m.qualifiedName d) = some (.found d) := by
  have hforest : m.WellFormed := h.coherent.forest
  obtain ⟨name, halone⟩ := hd.exists_namedAlone
  obtain ⟨path, hnames, hdescend, hresolve⟩ := hd.exists_path hforest
  rw [namesTo_of_mem_globals hforest halone.mem, halone.effectiveName_eq, Option.toList_some,
    List.singleton_append] at hnames
  have hparse : parse? (m.qualifiedName d) = some (name :: path) := by
    rw [h.remembersNames.qualifiedName_eq hforest, hnames]
    exact parse?_render (List.cons_ne_nil _ _)
  refine ⟨?_, fun s hs hshown => ?_⟩
  · have hfirst : m.lookupLexical? none name = some c := halone.find?_eq
    rw [find?, hparse, Option.bind_some, lookup, hfirst]
    simp only [hdescend, Lookup.found?]
  · have hfirst : m.resolveSimple s name = .found c :=
      resolveOutward_eq_found (resolveGlobal_eq_found hforest halone)
        (hshown name halone.effectiveName_eq)
    simp only [resolve?, resolve, hparse, resolvePath, hfirst, hresolve, hs, Bool.or_true, if_true]

/-- A class that has a feature of its own by a name, imports another class under that name, and
inherits a feature of that name from it. -/
def crowdedName : Model :=
  performAll { library := .empty }
    [.addRoot { metaclass := .package },
      .add ⟨0⟩ { metaclass := .package, name := some "P" },
      .add ⟨1⟩ { metaclass := .klass, name := some "A" },
      .add ⟨2⟩ { metaclass := .feature, name := some "x" },
      .add ⟨1⟩ { metaclass := .klass, name := some "B" },
      .add ⟨4⟩ { metaclass := .feature, name := some "x" },
      .addImport ⟨2⟩ { path := ["P", "B"], newName := some "x" },
      .request ⟨2⟩ { target := .path ["B"], kind := .subclassification },
      .link]

theorem resolve?_qualifiedName_crowdedName :
    crowdedName.Reachable ∧ crowdedName.Addressable ⟨1⟩ ⟨3⟩ ∧
    crowdedName.contains ⟨5⟩ ∧ crowdedName.Unshadowed ⟨5⟩ ⟨1⟩ ∧
    ((crowdedName.scope .outside ⟨2⟩).lookup "x").map (·.element) = [⟨3⟩, ⟨4⟩, ⟨5⟩] ∧
    crowdedName.qualifiedName ⟨3⟩ = "P::A::x" ∧
    crowdedName.find? "P::A::x" = some ⟨3⟩ ∧
    crowdedName.resolve? ⟨5⟩ "P::A::x" = some (.found ⟨3⟩) := by
  have hreachable : crowdedName.Reachable := (Reachable.empty .empty).performAll _
  have hkept : ∀ t, ¬ crowdedName.IsRedefined t := by
    intro t ht
    obtain ⟨d, hd, s, hs, hkind, -⟩ := (isRedefined_iff hreachable.coherent).1 ht
    have hnone : ∀ d ∈ crowdedName.ids, ∀ s ∈ crowdedName.specializations.get d,
        ¬ s.kind.includes .redefinition := by decide +kernel
    exact hnone d hd s hs hkind
  have hp : crowdedName.NamedAlone crowdedName.globals "P" ⟨1⟩ :=
    ⟨by decide +kernel, by decide +kernel, by decide +kernel⟩
  have ha : crowdedName.NamedAlone (crowdedName.members ⟨1⟩) "A" ⟨2⟩ :=
    ⟨by decide +kernel, by decide +kernel, by decide +kernel⟩
  have hx : crowdedName.NamedAlone (crowdedName.members ⟨2⟩) "x" ⟨3⟩ :=
    ⟨by decide +kernel, by decide +kernel, by decide +kernel⟩
  have hfeature : crowdedName.Addressable ⟨1⟩ ⟨3⟩ :=
    .member (.member (.top hp) ha (by decide +kernel) (hkept _)) hx (by decide +kernel) (hkept _)
  have hknown : crowdedName.contains ⟨5⟩ := by decide +kernel
  have hshown : crowdedName.Unshadowed ⟨5⟩ ⟨1⟩ := by
    intro name hname
    obtain rfl := Option.some.inj (hp.effectiveName_eq.symm.trans hname)
    have hall : ((crowdedName.ownerChain ⟨5⟩).all fun o =>
        ((crowdedName.scope .inside o).lookup "P").all (·.element == ⟨1⟩)) = true := by cbv
    simpa only [List.all_eq_true, beq_iff_eq] using hall
  have htext : crowdedName.qualifiedName ⟨3⟩ = "P::A::x" := by decide +kernel
  obtain ⟨hfind, hresolve⟩ := resolve?_qualifiedName hreachable hfeature
  rw [htext] at hfind hresolve
  exact ⟨hreachable, hfeature, hknown, hshown, by cbv, htext, hfind, hresolve ⟨5⟩ hknown hshown⟩

end Model
end Kerml
