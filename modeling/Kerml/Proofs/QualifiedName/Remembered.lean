import Kerml.Proofs.Forest.Content
import Kerml.Proofs.Forest.OwnerChain
import Kerml.Proofs.QualifiedName.RoundTrip
import Kerml.Proofs.Reachable
import Kerml.Proofs.Relink.Steps

/-!
# Qualified names that are remembered

Whatever changes a name forgets the qualified names of all that is within the declaration, so that
what is still remembered is what the names of now give.
-/
namespace Kerml

namespace Forest

variable {f : Forest} {d : ElementId}

private theorem declaredName_modify (change : Element → Element)
    (hname : ∀ e, (change e).declaration.name = e.declaration.name) (e : ElementId) :
    (f.modify d change).declaredName e = f.declaredName e := by
  simp only [declaredName, declaration?, element?_modify]
  split
  · cases f.element? e <;> simp [hname]
  · rfl

private theorem declaredName_modify_of_ne (change : Element → Element) {e : ElementId} (h : e ≠ d) :
    (f.modify d change).declaredName e = f.declaredName e := by
  simp only [declaredName, declaration?, element?_modify, if_neg h.symm]

end Forest

namespace Model

open QualifiedName

variable {m n : Model} {d e : ElementId}

/-- The names from the root down to a declaration. Declarations without a name have no part in
it. -/
def namesTo (m : Model) (d : ElementId) : List String :=
  (m.ownerChain d).reverse.filterMap m.effectiveName

/-- What is remembered of qualified names is what the names of now give, and of known declarations
only. -/
def RemembersNames (m : Model) : Prop :=
  ∀ d known, m.knownNames.get d = some known → m.contains d ∧ known = render (m.namesTo d)

theorem namesTo_eq (h : m.WellFormed) (d : ElementId) :
    m.namesTo d = ((m.owner d).map m.namesTo).getD [] ++ (m.effectiveName d).toList := by
  rw [namesTo, h.ownerChain_eq, List.reverse_cons, List.filterMap_append]
  cases m.owner d <;> cases hname : m.effectiveName d <;> simp [namesTo, hname]

theorem namesTo_congr (hchain : n.ownerChain d = m.ownerChain d)
    (hnames : ∀ e ∈ m.ownerChain d, n.effectiveName e = m.effectiveName e) :
    n.namesTo d = m.namesTo d := by
  rw [namesTo, namesTo, hchain]
  exact List.filterMap_congr fun e he => hnames e (List.mem_reverse.1 he)

/-- A name is put below a qualified name as it is put at the end of a path. -/
theorem qualify_render (path : List String) (name : Option String) :
    qualify (render path) name = render (path ++ name.toList) := by
  cases name with
  | none => rw [qualify, Option.toList_none, List.append_nil]
  | some name =>
    rw [qualify, Option.toList_some]
    by_cases hpath : path = []
    · rw [if_pos (isEmpty_render.2 hpath), hpath, List.nil_append, render_singleton]
    · rw [if_neg (mt isEmpty_render.1 hpath), render_concat name hpath]

/-- With what is remembered right, so is every qualified name. -/
theorem RemembersNames.qualifiedName_eq (h : m.RemembersNames) (hforest : m.WellFormed)
    (d : ElementId) : m.qualifiedName d = render (m.namesTo d) := by
  induction hi : d.index using Nat.strongRecOn generalizing d with
  | _ i ih =>
    rw [qualifiedName]
    cases hknown : m.knownNames.get d with
    | some known => exact (h d known hknown).2
    | none =>
      have htop : qualify "" (m.effectiveName d) = render (m.effectiveName d).toList :=
        qualify_render [] (m.effectiveName d)
      rw [namesTo_eq hforest]
      cases ho : m.owner d with
      | none => exact htop
      | some o =>
        have hlt : o.index < d.index := hforest.owner_lt ho
        simp only [hlt, dite_true]
        rw [ih o.index (hi ▸ hlt) o rfl, qualify_render]
        rfl

theorem RemembersNames.of_sameNames (h : m.RemembersNames) (hn : SameNames m n) :
    n.RemembersNames := by
  intro d known hknown
  have hnames : n.namesTo d = m.namesTo d :=
    namesTo_congr (by rw [hn.forest]) fun e _ => congrFun hn.effectiveName e
  rw [hn.knownNames] at hknown
  rw [hn.forest, hnames]
  exact h d known hknown

/-- A declaration may get another name, if what is within it is forgotten. -/
theorem RemembersNames.forgetNames (h : m.RemembersNames) (hknown : n.knownNames = m.knownNames)
    (hcontains : ∀ e, m.contains e → n.contains e) (howner : n.owner = m.owner)
    (hname : ∀ e, e ≠ d → n.effectiveName e = m.effectiveName e) :
    (n.forgetNames d).RemembersNames := by
  intro e known hget
  have hget : (if n.encloses d e then none else n.knownNames.get e) = some known :=
    (Column.get_clearWhere ..).symm.trans hget
  split at hget
  · cases hget
  · rename_i hout
    rw [hknown] at hget
    obtain ⟨he, heq⟩ := h e known hget
    have hchain : n.ownerChain e = m.ownerChain e :=
      Forest.ownerChain_congr fun x _ => congrFun howner x
    have hkept : n.namesTo e = m.namesTo e := by
      refine namesTo_congr hchain fun x hx => hname x ?_
      rintro rfl
      exact hout (by simpa [Forest.encloses, hchain] using hx)
    exact ⟨hcontains e he, heq.trans (congrArg render hkept.symm)⟩

theorem RemembersNames.takeName (h : m.RemembersNames) (d : ElementId) :
    (m.takeName d).RemembersNames := by
  rw [Model.takeName]
  split
  · split
    · exact h
    · refine h.forgetNames rfl (fun _ he => he) rfl fun e he => ?_
      rw [effectiveName, effectiveName, Column.get_put_of_ne _ he.symm]
  · exact h

theorem RemembersNames.takeNames (h : m.RemembersNames) (ds : List ElementId) :
    (m.takeNames ds).RemembersNames :=
  takeNames_induction (p := RemembersNames) (fun _ d _ hn => hn.takeName d) h

theorem RemembersNames.link (m : Model) : m.link.RemembersNames := by
  have hunlinked : m.unlinked.RemembersNames := by
    intro d known hknown
    cases hknown
  exact ((hunlinked.of_sameNames (requested_sameNames m)).takeNames m.preorder).of_sameNames
    (link_sameNames m)

theorem RemembersNames.cleared (h : m.RemembersNames) (d : ElementId) :
    (m.cleared d).RemembersNames := by
  refine h.forgetNames rfl (fun _ he => he) rfl fun e he => ?_
  rw [effectiveName, effectiveName, Column.get_put_of_ne _ he.symm]

theorem RemembersNames.rederived (h : m.RemembersNames) (d : ElementId) :
    (m.rederived d).RemembersNames :=
  ((h.of_sameNames (applyRequests_sameNames m d)).takeNames [d]).of_sameNames
    (rederived_sameNames m d)

theorem effectiveName_withForest (m : Model) (f : Forest) (d : ElementId) :
    (m.withForest f).effectiveName d = (f.declaredName d).or (m.takenNames.get d) := rfl

/-- More may be written down, if what there was keeps its owners and its names. -/
theorem RemembersNames.grow (h : m.RemembersNames) (hforest : m.WellFormed) {f : Forest}
    (hgrows : m.Grows f) (howner : ∀ e, m.contains e → f.owner e = m.owner e)
    (hname : ∀ e, m.contains e → f.declaredName e = m.declaredName e) :
    (m.withForest f).RemembersNames := by
  intro d known hknown
  obtain ⟨hd, heq⟩ := h d known hknown
  have hon : ∀ e ∈ m.ownerChain d, m.contains e := fun e he =>
    hforest.contains_of_mem_ownerChain hd he
  have hkept : (m.withForest f).namesTo d = m.namesTo d := by
    refine namesTo_congr (Forest.ownerChain_congr fun e he => howner e (hon e he)) fun e he => ?_
    rw [effectiveName_withForest, hname e (hon e he), effectiveName]
  exact ⟨hgrows.contains hd, heq.trans (congrArg render hkept.symm)⟩

theorem RemembersNames.modify (h : m.RemembersNames) (hforest : m.WellFormed)
    (change : Element → Element) (hdeclaration : ∀ e, (change e).declaration = e.declaration)
    (howner : ∀ e, (change e).owner = e.owner) :
    (m.withForest (m.toForest.modify d change)).RemembersNames := by
  refine h.grow hforest (Forest.grows_modify _ d change fun e => by rw [hdeclaration]) ?_ ?_
  · exact fun e _ => Forest.owner_modify _ d e change howner
  · exact fun e _ => Forest.declaredName_modify change (fun e => by rw [hdeclaration]) e

theorem RemembersNames.setName (h : m.RemembersNames) {f : Forest} {name : Option String}
    (hf : m.toForest.setName d name = .ok f) : ((m.withForest f).forgetNames d).RemembersNames := by
  obtain rfl := Forest.eq_of_setName hf
  refine h.forgetNames rfl (fun e he => ?_) (funext fun e => ?_) fun e he => ?_
  · exact (Forest.contains_modify ..).trans he
  · exact Forest.owner_modify _ d e _ fun _ => rfl
  · rw [effectiveName_withForest, Forest.declaredName_modify_of_ne _ he, effectiveName]

theorem RemembersNames.perform (h : m.RemembersNames) (hforest : m.WellFormed) {c : Command}
    (hc : m.perform c = .ok n) : n.RemembersNames := by
  cases c with
  | addRoot declaration =>
    cases hc
    refine h.grow hforest (Forest.grows_addRoot declaration) ?_ ?_
    · exact fun e _ => Forest.owner_addRoot _ declaration e
    · intro e he
      have hread := Forest.declaration?_push_of_ne { declaration } (Forest.ne_nextId he)
      exact congrArg (·.bind (·.name)) hread
  | add owner declaration =>
    obtain ⟨p, hp, rfl⟩ := exists_of_map_eq_ok hc
    obtain ⟨f, hf, rfl⟩ := exists_of_map_eq_ok hp
    refine h.grow hforest (Forest.grows_add hf) ?_ ?_
    · intro e he
      rw [Forest.owner_add hf, if_neg (Forest.ne_nextId he)]
    · intro e he
      exact congrArg (·.bind (·.name)) (Forest.declaration?_add hf (Forest.ne_nextId he))
  | request d r =>
    obtain ⟨f, hf, rfl⟩ := exists_of_map_eq_ok hc
    obtain ⟨-, -, rfl⟩ := Forest.eq_of_request hf
    exact h.modify hforest _ (fun _ => rfl) fun _ => rfl
  | clearRequests d =>
    obtain ⟨f, hf, rfl⟩ := exists_of_map_eq_ok hc
    obtain rfl := Forest.eq_of_clearRequests hf
    exact h.modify hforest _ (fun _ => rfl) fun _ => rfl
  | addImport d i =>
    obtain ⟨f, hf, rfl⟩ := exists_of_map_eq_ok hc
    obtain rfl := Forest.eq_of_addImport hf
    exact h.modify hforest _ (fun _ => rfl) fun _ => rfl
  | setName d name =>
    obtain ⟨f, hf, rfl⟩ := exists_of_map_eq_ok hc
    exact h.setName hf
  | link =>
    cases hc
    exact .link m
  | reset d =>
    obtain ⟨-, rfl⟩ := reset_eq_ok_iff.1 hc
    exact h.cleared d
  | relink d =>
    obtain ⟨-, rfl⟩ := relink_eq_ok_iff.1 hc
    exact h.rederived d

theorem RemembersNames.rememberName (h : m.RemembersNames) (hforest : m.WellFormed)
    (hd : m.contains d) : (m.rememberName d).RemembersNames := by
  intro e known hget
  rw [Model.rememberName, Column.get_foldl_put] at hget
  split at hget
  · rename_i he
    obtain rfl := Option.some.inj hget
    exact ⟨hforest.contains_of_mem_ownerChain hd he, h.qualifiedName_eq hforest e⟩
  · exact h e known hget

theorem RemembersNames.ask (h : m.RemembersNames) (hforest : m.WellFormed) (q : Query) :
    (m.ask q).RemembersNames := by
  cases q with
  | categories d => exact h.of_sameNames (askCategories_sameButMemos m d).sameNames
  | allCategories => exact h.of_sameNames (askAllCategories_sameButMemos m).sameNames
  | name d =>
    rw [Model.ask, askName?]
    split
    · exact h.rememberName hforest ‹_›
    · exact h
  | names =>
    refine (List.foldlRecOn (motive := fun n => n.RemembersNames ∧ n.toForest = m.toForest)
      m.ids Model.rememberName ⟨h, rfl⟩ ?_).1
    rintro n ⟨hn, hsame⟩ d hd
    have hknown : m.contains d := Forest.mem_ids_iff.1 hd
    exact ⟨hn.rememberName (hsame ▸ hforest) (hsame ▸ hknown), hsame⟩

theorem Reachable.remembersNames (h : m.Reachable) : m.RemembersNames := by
  induction h with
  | empty library =>
    intro d known hknown
    cases hknown
  | perform h c hc ih => exact ih.perform h.coherent.forest hc
  | ask h q ih => exact ih.ask h.coherent.forest q

/-- Whatever has been done to a model and whatever it remembers, the qualified name of a declaration
is made of the names of now, those of its owners before its own. Read back it gives these names. -/
theorem askName?_eq_render_namesTo (h : m.Reachable) (hd : m.contains d) :
    (m.askName? d).map (·.1) = some (render (m.namesTo d)) ∧
    (∀ e, m.namesTo e = ((m.owner e).map m.namesTo).getD [] ++ (m.effectiveName e).toList) ∧
    (m.namesTo d ≠ [] → parse? (render (m.namesTo d)) = some (m.namesTo d)) := by
  have hforest : m.WellFormed := h.coherent.forest
  refine ⟨?_, namesTo_eq hforest, fun hnames => ?_⟩
  · rw [askName?, if_pos hd, Option.map_some, h.remembersNames.qualifiedName_eq hforest]
  · exact parse?_render hnames

/-- A package that has got another name after all names had been asked for. A feature in one of its
classes has taken the name of the one it redefines. -/
def renamedPackage : Model :=
  ((performAll { library := .empty }
    [.addRoot { metaclass := .package },
      .add ⟨0⟩ { metaclass := .package, name := some "P" },
      .add ⟨1⟩ { metaclass := .klass, name := some "A" },
      .add ⟨2⟩ { metaclass := .feature, name := some "x" },
      .add ⟨1⟩ { metaclass := .klass, name := some "" },
      .add ⟨4⟩ { metaclass := .feature },
      .request ⟨5⟩ { target := .element ⟨3⟩, kind := .redefinition },
      .link]).ask .names).performAll [.setName ⟨1⟩ (some "it's::P")]

theorem askName?_eq_render_namesTo_renamedPackage :
    renamedPackage.Reachable ∧ renamedPackage.contains ⟨5⟩ ∧
    (renamedPackage.askName? ⟨5⟩).map (·.1) = some "'it\\'s::P'::''::x" ∧
    renamedPackage.namesTo ⟨5⟩ ≠ [] ∧
    parse? "'it\\'s::P'::''::x" = some ["it's::P", "", "x"] := by
  have hreachable : renamedPackage.Reachable :=
    (((Reachable.empty .empty).performAll _).ask .names).performAll _
  have hknown : renamedPackage.contains ⟨5⟩ := by decide +kernel
  have hnames : renamedPackage.namesTo ⟨5⟩ = ["it's::P", "", "x"] := by decide +kernel
  have htext : render ["it's::P", "", "x"] = "'it\\'s::P'::''::x" := by decide +kernel
  obtain ⟨hasked, -, hread⟩ := askName?_eq_render_namesTo hreachable hknown
  rw [hnames, htext] at hasked hread
  exact ⟨hreachable, hknown, hasked, by rw [hnames]; simp, hread (by simp)⟩

end Model
end Kerml
