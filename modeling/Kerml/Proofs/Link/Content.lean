import Kerml.Proofs.Classification.Answers
import Kerml.Proofs.Forest.Content
import Kerml.Proofs.Relink.Steps

/-!
# What linking depends on

It depends on what is written down, and on the paths that the library has for the roles. Whatever
was derived before is derived anew, so linking again changes nothing.
-/
namespace Kerml.Model

variable {m n k : Model} {d : ElementId}

def withLibrary (m : Model) (l : SupertypeTable) : Model :=
  { m with library := l }

/-- Models that differ at most in their libraries, which lead to the same paths. -/
def SameButLibrary (m n : Model) : Prop :=
  ∃ l : SupertypeTable, l.pathFor? = m.library.pathFor? ∧ n = m.withLibrary l

theorem withLibrary_sameNames {l : SupertypeTable} (hl : l.pathFor? = m.library.pathFor?) :
    SameNames m (m.withLibrary l) := ⟨rfl, hl, rfl, rfl⟩

namespace SameButLibrary

theorem forest (h : SameButLibrary m n) : n.toForest = m.toForest := by
  obtain ⟨l, -, rfl⟩ := h
  rfl

theorem applyRequest (h : SameButLibrary m n) (d : ElementId) (r : Request) (t : Option ElementId) :
    SameButLibrary (m.applyRequest d r t) (n.applyRequest d r t) := by
  obtain ⟨l, hl, rfl⟩ := h
  exact ⟨l, hl.trans (applyRequest_sameNames m d r t).pathFor?.symm, by cases t <;> rfl⟩

theorem applyRequests (h : SameButLibrary m n) (d : ElementId) :
    SameButLibrary (m.applyRequests d) (n.applyRequests d) := by
  obtain ⟨l, hl, rfl⟩ := h
  rw [Model.applyRequests, Model.applyRequests, (withLibrary_sameNames hl).bind?]
  exact List.foldl_rel ⟨l, hl, rfl⟩ fun b _ _ _ h => h.applyRequest d b.1 b.2

theorem takeName (h : SameButLibrary m n) (d : ElementId) :
    SameButLibrary (m.takeName d) (n.takeName d) := by
  obtain ⟨l, hl, rfl⟩ := h
  have hpaths : l.pathFor? = (m.takeName d).library.pathFor? := by
    rw [hl, (takeName_sameEdges m d).library]
  have hname : (m.withLibrary l).redefinedName? d = m.redefinedName? d := rfl
  refine ⟨l, hpaths, ?_⟩
  rw [Model.takeName, Model.takeName, hname]
  by_cases hd : m.isNameless d
  · rw [if_pos hd, if_pos (show (m.withLibrary l).isNameless d from hd)]
    cases m.redefinedName? d <;> rfl
  · rw [if_neg hd, if_neg (show ¬ (m.withLibrary l).isNameless d from hd)]

theorem namelessCount (h : SameButLibrary m n) : n.namelessCount = m.namelessCount := by
  obtain ⟨l, -, rfl⟩ := h
  rfl

theorem takeNames (h : SameButLibrary m n) (ds : List ElementId) :
    SameButLibrary (m.takeNames ds) (n.takeNames ds) := by
  induction hc : m.namelessCount using Nat.strongRecOn generalizing m n with
  | _ c ih =>
    have hnext : SameButLibrary (m.takeNamesOnce ds) (n.takeNamesOnce ds) :=
      List.foldl_rel h fun d _ _ _ h => h.takeName d
    rw [Model.takeNames.eq_def m, Model.takeNames.eq_def n]
    simp only [hnext.namelessCount, h.namelessCount]
    split
    · exact ih _ (hc ▸ ‹_›) hnext rfl
    · exact hnext

theorem visit (h : SameButLibrary m n) (depth : Nat) : n.visit depth = m.visit depth := by
  obtain ⟨l, -, rfl⟩ := h
  induction depth with
  | zero => rfl
  | succ depth ih =>
    funext w d
    rw [Model.visit, Model.visit, ih]
    rfl

theorem askCategories (h : SameButLibrary m n) (d : ElementId) :
    (n.askCategories d).1 = (m.askCategories d).1 ∧
      SameButLibrary (m.askCategories d).2 (n.askCategories d).2 := by
  have hvisit := h.visit (m.size + 1)
  obtain ⟨l, hl, rfl⟩ := h
  have hasked : (m.withLibrary l).askCategories d =
      ((m.askCategories d).1, (m.askCategories d).2.withLibrary l) := by
    by_cases hd : m.contains d
    · have hd' : (m.withLibrary l).contains d := hd
      rw [Model.askCategories, Model.askCategories, if_pos hd, if_pos hd']
      change (((m.withLibrary l).visit (m.size + 1) { memos := m.memos } d).2.gathered,
        { m.withLibrary l with
          memos := ((m.withLibrary l).visit (m.size + 1) { memos := m.memos } d).1.memos }) = _
      rw [hvisit]
      rfl
    · have hd' : ¬ (m.withLibrary l).contains d := hd
      rw [Model.askCategories, Model.askCategories, if_neg hd, if_neg hd']
  rw [hasked]
  exact ⟨rfl, l, hl.trans (askCategories_sameButMemos m d).sameNames.pathFor?.symm, rfl⟩

theorem askOwnerCategories (h : SameButLibrary m n) (d : ElementId) :
    (n.askOwnerCategories d).1 = (m.askOwnerCategories d).1 ∧
      SameButLibrary (m.askOwnerCategories d).2 (n.askOwnerCategories d).2 := by
  have hasked := fun o => h.askCategories o
  rw [Model.askOwnerCategories, Model.askOwnerCategories, h.forest]
  cases m.owner d with
  | none => exact ⟨rfl, h⟩
  | some o => exact hasked o

theorem askRole (h : SameButLibrary m n) (d : ElementId) :
    (n.askRole d).1 = (m.askRole d).1 ∧ SameButLibrary (m.askRole d).2 (n.askRole d).2 := by
  have hforest := h.forest
  obtain ⟨howners, hasked⟩ := h.askOwnerCategories d
  obtain ⟨hown, hboth⟩ := hasked.askCategories d
  simp only [Model.askRole, hforest]
  split
  · exact ⟨rfl, h⟩
  · split
    · exact ⟨rfl, h⟩
    · split
      · exact ⟨by simp only [howners, hasked.forest], hasked⟩
      · exact ⟨rfl, hasked⟩
      · exact ⟨by rw [howners, hown], hboth⟩

theorem askRoles (h : SameButLibrary m n) (d : ElementId) :
    (n.askRoles d).1 = (m.askRoles d).1 ∧ SameButLibrary (m.askRoles d).2 (n.askRoles d).2 := by
  have hwritten : n.hasWrittenSupertype d = m.hasWrittenSupertype d := by
    obtain ⟨l, -, rfl⟩ := h
    rfl
  have hparticipant : ∀ {m n : Model}, SameButLibrary m n → n.isParticipant d = m.isParticipant d := by
    rintro m _ ⟨l, -, rfl⟩
    rfl
  obtain ⟨hrole, hasked⟩ := h.askRole d
  simp only [Model.askRoles, hwritten]
  split
  · exact ⟨by rw [hparticipant h], h⟩
  · exact ⟨by rw [hrole, hparticipant hasked], hasked⟩

theorem addImplied (h : SameButLibrary m n) (d : ElementId) (r : SupertypeRole) :
    SameButLibrary (m.addImplied d r) (n.addImplied d r) := by
  obtain ⟨l, hl, rfl⟩ := h
  refine ⟨l, hl.trans (addImplied_sameNames m d r).pathFor?.symm, ?_⟩
  have hpath : (m.withLibrary l).library.pathFor? ((m.withLibrary l).metaclass d) r =
      m.library.pathFor? (m.metaclass d) r := congrFun (congrFun hl _) _
  rw [Model.addImplied, Model.addImplied, hpath, (withLibrary_sameNames hl).find?]
  cases m.library.pathFor? (m.metaclass d) r with
  | none => rfl
  | some path =>
    cases hfind : m.find? path with
    | none => simp only [hfind]; rfl
    | some t =>
      simp only [hfind]
      split <;> rfl

theorem addSupertypes (h : SameButLibrary m n) (d : ElementId) :
    SameButLibrary (m.addSupertypes d) (n.addSupertypes d) := by
  have hforest := h.forest
  obtain ⟨hroles, hasked⟩ := h.askRoles d
  simp only [Model.addSupertypes, hforest]
  split
  · rw [hroles]
    exact List.foldl_rel hasked fun r _ _ _ h => h.addImplied d r
  · exact h

theorem checkImports (h : SameButLibrary m n) (d : ElementId) :
    SameButLibrary (m.checkImports d) (n.checkImports d) := by
  obtain ⟨l, hl, rfl⟩ := h
  refine ⟨l, hl, ?_⟩
  rw [Model.checkImports, Model.checkImports, (withLibrary_sameNames hl).importProblem?]
  rfl

theorem complete (h : SameButLibrary m n) : SameButLibrary m.complete n.complete := by
  have hunlinked : SameButLibrary m.unlinked n.unlinked := by
    obtain ⟨l, hl, rfl⟩ := h
    exact ⟨l, hl, rfl⟩
  have hrequested : SameButLibrary (m.preorder.foldl Model.applyRequests m.unlinked)
      (m.preorder.foldl Model.applyRequests n.unlinked) :=
    List.foldl_rel hunlinked fun d _ _ _ h => h.applyRequests d
  rw [Model.complete, Model.complete, Model.named, Model.named, Model.requested, Model.requested,
    h.forest]
  exact List.foldl_rel (hrequested.takeNames m.preorder) fun d _ _ _ h => h.addSupertypes d

theorem link (h : SameButLibrary m n) : SameButLibrary m.link n.link := by
  have hchecked : SameButLibrary (m.preorder.foldl Model.checkImports m.complete)
      (m.preorder.foldl Model.checkImports n.complete) :=
    List.foldl_rel h.complete fun d _ _ _ h => h.checkImports d
  obtain ⟨l, hl, heq⟩ := hchecked
  refine ⟨l, hl, ?_⟩
  change { n.preorder.foldl Model.checkImports n.complete with memos := ∅ } = _
  rw [h.forest, heq]
  rfl

end SameButLibrary

/-- A model in which the same is written down as in another one, with the same library. -/
structure SameWritten (m n : Model) : Prop where
  forest : n.toForest = m.toForest
  library : n.library = m.library

namespace SameWritten

theorem refl (m : Model) : SameWritten m m := ⟨rfl, rfl⟩

theorem trans (h : SameWritten m n) (h' : SameWritten n k) : SameWritten m k :=
  ⟨h'.forest.trans h.forest, h'.library.trans h.library⟩

theorem foldl {α : Type} {step : Model → α → Model} (hstep : ∀ m a, SameWritten m (step m a))
    (as : List α) (m : Model) : SameWritten m (as.foldl step m) :=
  foldl_rel refl trans hstep as m

theorem link (h : SameWritten m n) : n.link = m.link := by
  have hunlinked : n.unlinked = m.unlinked := by rw [Model.unlinked, Model.unlinked, h.forest, h.library]
  change n.unlinked.link = m.unlinked.link
  rw [hunlinked]

end SameWritten

theorem SameEdges.sameWritten (h : SameEdges m n) : SameWritten m n := ⟨h.forest, h.library⟩

theorem applyRequests_sameWritten (m : Model) (d : ElementId) :
    SameWritten m (m.applyRequests d) := by
  rw [applyRequests]
  refine SameWritten.foldl (fun m (b : Request × Option ElementId) => ?_) _ m
  obtain ⟨r, _ | t⟩ := b <;> exact ⟨rfl, rfl⟩

private theorem addImplied_sameWritten (m : Model) (d : ElementId) (r : SupertypeRole) :
    SameWritten m (m.addImplied d r) := by
  rw [addImplied]
  split
  · exact .refl m
  · split
    · exact ⟨rfl, rfl⟩
    · split <;> exact ⟨rfl, rfl⟩

theorem addSupertypes_sameWritten (m : Model) (d : ElementId) :
    SameWritten m (m.addSupertypes d) := by
  rw [addSupertypes]
  split
  · exact (askRoles_sameButMemos m d).sameEdges.sameWritten.trans
      (SameWritten.foldl (fun m r => addImplied_sameWritten m d r) _ _)
  · exact .refl m

private theorem checkImports_sameWritten (m : Model) (d : ElementId) :
    SameWritten m (m.checkImports d) := ⟨rfl, rfl⟩

theorem link_sameWritten (m : Model) : SameWritten m m.link := by
  have hunlinked : SameWritten m m.unlinked := ⟨rfl, rfl⟩
  have hrequested : SameWritten m.unlinked m.requested :=
    SameWritten.foldl applyRequests_sameWritten m.preorder m.unlinked
  have hcomplete : SameWritten m.named m.complete :=
    SameWritten.foldl addSupertypes_sameWritten m.preorder m.named
  have hchecked : SameWritten m.complete (m.preorder.foldl checkImports m.complete) :=
    SameWritten.foldl checkImports_sameWritten m.preorder m.complete
  have hlinked : SameWritten (m.preorder.foldl checkImports m.complete) m.link := ⟨rfl, rfl⟩
  exact hunlinked.trans <| hrequested.trans <| (named_sameEdges m).sameWritten.trans <|
    hcomplete.trans <| hchecked.trans hlinked

theorem rederived_sameWritten (m : Model) (d : ElementId) : SameWritten m (m.rederived d) := by
  have hrenamed := (applyRequests_sameWritten m d).trans (renamed_sameEdges m d).sameWritten
  refine (hrenamed.trans (addSupertypes_sameWritten _ d)).trans ?_
  rw [rederived, forgetCategories, checkImports]
  exact ⟨rfl, rfl⟩

/-- What linking, resetting, relinking and queries make of a model. None of it is written down. -/
inductive Upkept (m : Model) : Model → Prop
  | refl : Upkept m m
  | link {n : Model} (h : Upkept m n) : Upkept m n.link
  | reset {n k : Model} (h : Upkept m n) (d : ElementId) (hk : n.reset d = .ok k) : Upkept m k
  | relink {n k : Model} (h : Upkept m n) (d : ElementId) (hk : n.relink d = .ok k) : Upkept m k
  | ask {n : Model} (h : Upkept m n) (q : Query) : Upkept m (n.ask q)

theorem Upkept.sameWritten (h : Upkept m n) : SameWritten m n := by
  induction h with
  | refl => exact .refl m
  | link _ ih => exact ih.trans (link_sameWritten _)
  | reset _ d hk ih =>
    obtain ⟨-, rfl⟩ := reset_eq_ok_iff.1 hk
    exact ih.trans ⟨rfl, rfl⟩
  | relink _ d hk ih =>
    obtain ⟨-, rfl⟩ := relink_eq_ok_iff.1 hk
    exact ih.trans (rederived_sameWritten _ d)
  | ask _ q ih => exact ih.trans (ask_sameEdges _ q).sameWritten

private theorem endsListed_perform {c : Command} (h : m.WellFormed) (he : m.EndsListed)
    (hc : m.perform c = .ok n) : n.EndsListed := by
  cases c with
  | addRoot declaration =>
    cases hc
    exact he.push (fun _ _ => h.contains_member) rfl rfl
  | add owner declaration =>
    obtain ⟨p, hp, rfl⟩ := exists_of_map_eq_ok hc
    obtain ⟨f, hf, rfl⟩ := exists_of_map_eq_ok hp
    exact he.add h hf
  | request d r =>
    obtain ⟨f, hf, rfl⟩ := exists_of_map_eq_ok hc
    obtain ⟨-, -, rfl⟩ := Forest.eq_of_request hf
    exact he.modify d _ (fun _ => ⟨rfl, rfl⟩) (fun _ => rfl) fun _ => rfl
  | clearRequests d =>
    obtain ⟨f, hf, rfl⟩ := exists_of_map_eq_ok hc
    rw [Forest.eq_of_clearRequests hf]
    exact he.modify d _ (fun _ => ⟨rfl, rfl⟩) (fun _ => rfl) fun _ => rfl
  | addImport d i =>
    obtain ⟨f, hf, rfl⟩ := exists_of_map_eq_ok hc
    rw [Forest.eq_of_addImport hf]
    exact he.modify d _ (fun _ => ⟨rfl, rfl⟩) (fun _ => rfl) fun _ => rfl
  | setName d name =>
    obtain ⟨f, hf, rfl⟩ := exists_of_map_eq_ok hc
    rw [Forest.eq_of_setName hf]
    exact he.modify d _ (fun _ => ⟨rfl, rfl⟩) (fun _ => rfl) fun _ => rfl
  | link =>
    cases hc
    rw [(link_sameWritten m).forest]
    exact he
  | reset d =>
    obtain ⟨-, rfl⟩ := reset_eq_ok_iff.1 hc
    exact he
  | relink d =>
    obtain ⟨-, rfl⟩ := relink_eq_ok_iff.1 hc
    rw [rederived_forest]
    exact he

theorem Reachable.endsListed (h : m.Reachable) : m.EndsListed := by
  induction h with
  | empty library => exact .empty
  | perform h c hc ih => exact endsListed_perform h.coherent.forest ih hc
  | ask _ q ih =>
    rw [(ask_sameEdges _ q).forest]
    exact ih

/-- The same is said of every declaration, and the library has the same paths. -/
structure SameContent (m n : Model) : Prop where
  declaration? : n.declaration? = m.declaration?
  owner : n.owner = m.owner
  members : n.members = m.members
  imports : n.imports = m.imports
  requests : n.requests = m.requests
  pathFor? : n.library.pathFor? = m.library.pathFor?

private theorem SameContent.sameButLibrary (hm : m.Reachable) (hn : n.Reachable) (h : SameContent m n) :
    SameButLibrary m.unlinked n.unlinked := by
  have hforest : n.toForest = m.toForest :=
    Forest.eq_of_reads hm.coherent.forest hn.coherent.forest hm.endsListed hn.endsListed
      h.declaration? h.owner h.members h.imports h.requests
  refine ⟨n.library, h.pathFor?, ?_⟩
  rw [unlinked, unlinked, hforest]
  rfl

/-- Models with the same content are linked alike, whatever was derived in each of them before. In
particular nothing comes of linking twice. -/
theorem link_of_sameContent (hm : m.Reachable) (hn : n.Reachable) (h : SameContent m n) :
    (∀ d, n.link.specializations.get d = m.link.specializations.get d ∧
      n.link.takenNames.get d = m.link.takenNames.get d ∧
      n.link.qualifiedName d = m.link.qualifiedName d ∧
      n.link.memos.get d = m.link.memos.get d) ∧
    n.link.report.diagnostics = m.link.report.diagnostics ∧
    (∀ k, Upkept m k → k.link = m.link) ∧ m.link.link = m.link := by
  have hlinked : SameButLibrary m.link n.link := (h.sameButLibrary hm hn).link
  obtain ⟨l, hl, heq⟩ := hlinked
  rw [heq]
  refine ⟨fun d => ⟨rfl, rfl, ?_, rfl⟩, rfl, fun k hk => hk.sameWritten.link,
    (link_sameWritten m).link⟩
  exact congrFun (withLibrary_sameNames hl).qualifiedName d

/-- Two classes in a package, the second of which specializes the first. -/
def classPair (library : SupertypeTable) : Model :=
  performAll { library }
    [.addRoot { metaclass := .package, name := some "P" },
      .add ⟨0⟩ { metaclass := .klass, name := some "A" },
      .add ⟨0⟩ { metaclass := .klass, name := some "B" },
      .request ⟨2⟩ { target := .path ["A"], kind := .subclassification }]

def pairLibrary : SupertypeTable :=
  (SupertypeTable.empty.insert .klass .base "P::A").insert .struct .base "P::B"

def swappedLibrary : SupertypeTable :=
  (SupertypeTable.empty.insert .struct .base "P::B").insert .klass .base "P::A"

def wornClassPair : Model :=
  ((classPair swappedLibrary).link.ask .allCategories).cleared ⟨2⟩

theorem link_of_sameContent_wornClassPair :
    (classPair pairLibrary).Reachable ∧ wornClassPair.Reachable ∧
    SameContent (classPair pairLibrary) wornClassPair ∧
    wornClassPair.specializations.get ⟨2⟩ = [] ∧
    wornClassPair.link.specializations.get ⟨2⟩ =
      (classPair pairLibrary).link.specializations.get ⟨2⟩ ∧
    wornClassPair.link.link = wornClassPair.link := by
  have hreachable : ∀ l, (classPair l).Reachable := fun l => (Reachable.empty l).performAll _
  have hwritten : SameWritten (classPair swappedLibrary)
      ((classPair swappedLibrary).link.ask .allCategories) :=
    (link_sameWritten _).trans (ask_sameEdges _ _).sameWritten
  have hworn : wornClassPair.Reachable := by
    have hasked := ((hreachable swappedLibrary).perform .link rfl).ask .allCategories
    refine hasked.perform (.reset ⟨2⟩) (reset_eq_ok_iff.2 ⟨?_, rfl⟩)
    rw [hwritten.forest]
    decide +kernel
  have hforest : wornClassPair.toForest = (classPair pairLibrary).toForest := by
    rw [wornClassPair, cleared_forest, hwritten.forest]
    rfl
  have hlibrary : swappedLibrary.pathFor? = pairLibrary.pathFor? := by
    funext k r
    cases k <;> cases r <;> rfl
  have hsame : SameContent (classPair pairLibrary) wornClassPair := by
    constructor
    any_goals rw [hforest]
    exact (congrArg SupertypeTable.pathFor? hwritten.library).trans hlibrary
  obtain ⟨hderived, -, -, -⟩ := link_of_sameContent (hreachable _) hworn hsame
  obtain ⟨-, -, -, htwice⟩ := link_of_sameContent hworn hworn ⟨rfl, rfl, rfl, rfl, rfl, rfl⟩
  exact ⟨hreachable _, hworn, hsame, (cleared_get _ _ _).trans (if_pos rfl), (hderived ⟨2⟩).1,
    htwice⟩

end Kerml.Model
