import Kerml.Proofs.Classification.Answers
import Kerml.Proofs.Forest.Content
import Kerml.Proofs.Relink.Steps

/-!
# Revising a declaration

All that leads to it is reset and then relinked in the order of the text. While this is underway
some declarations lack their specializations. Categories that are derived meanwhile may lack
something, but they have nothing too much.
-/
namespace Kerml

/-- The command changes the specializations that are written down for a declaration. -/
def Command.Revises (d : ElementId) : Command → Prop
  | .request e _ => e = d
  | .clearRequests e => e = d
  | _ => False

namespace Model

open Relation

variable {m n k : Model} {d e u x : ElementId} {c : Category} {ds pending : List ElementId}
  {p : ElementId → Prop}

/-- There is a path of specializations of any kinds from one declaration to the other. -/
def LeadsTo (m : Model) : ElementId → ElementId → Prop :=
  ReflTransGen fun d t => ∃ s ∈ m.specializations.get d, s.general = t

/-- Resets declarations and then relinks them in the order of the text. -/
def rederiveAll (m : Model) (ds : List ElementId) : Except BuildError Model := do
  let r ← ds.foldlM reset m
  (r.preorder.filter (· ∈ ds)).foldlM relink r

/-- Of what is relinked before a declaration whose supertype depends on categories, nothing that it or
its owner specializes goes back to it or to what is relinked later. -/
def RelinksInOrder (k : Model) (ds : List ElementId) : Prop :=
  ∀ before u after, k.preorder.filter (· ∈ ds) = before ++ u :: after → k.Consults u →
    ∀ t ∈ before, (k.Specializes u t ∨ ∃ o, k.owner u = some o ∧ k.Specializes o t) →
      ∀ v ∈ u :: after, ¬ k.Specializes t v

namespace Underway

theorem consulted (h : Underway k p pending n) (hk : Coherent k) (hp : k.Closed p)
    (hu : n.Consults u → Settles k p pending u ∧
      ∀ o, n.owner u = some o → Settles k p pending o) :
    Underway k p pending (n.consulted u) := by
  refine consulted_induction (p := fun n => Underway k p pending n) h fun n' hn' e he => ?_
  obtain ⟨hself, howner⟩ := hu (consults_of_mem_informants he)
  refine hn'.askCategories hk hp ?_
  rcases mem_informants he with rfl | he
  · exact hself
  · exact howner e he

theorem renamed (h : Underway k p (u :: pending) n)
    (hget : (n.renamed u).specializations.get u ⊆ k.specializations.get u) :
    Underway k p (u :: pending) (n.renamed u) := by
  have hforgets := renamed_forgetsAtMost n u
  have hdone : ∀ {x b}, (n.renamed u).memos.get x = .done b → n.memos.get x = .done b := by
    intro x b hmemo
    exact (hforgets.get_eq (by simp [hmemo])).symm.trans hmemo
  have hother : ∀ {e}, u ≠ e → (n.renamed u).specializations.get e = n.specializations.get e :=
    fun hue => by rw [renamed_get, if_neg hue]
  constructor
  · exact (renamed_forest n u).trans h.forest
  · intro e he
    rw [hother fun hue => he (hue ▸ List.mem_cons_self)]
    exact h.get_of_notMem e he
  · intro e
    by_cases hue : u = e
    · exact hue ▸ hget
    · rw [hother hue]
      exact h.get_subset e
  · exact fun x hx => h.settled x ((hforgets.get_eq (by simp [hx])).symm.trans hx)
  · exact fun x b hx hmemo => h.sound x b hx (hdone hmemo)
  · exact fun x b hpx hnot hx hmemo => h.complete x b hpx hnot hx (hdone hmemo)

/-- Relinking the next one of the declarations that wait. -/
theorem rederived (h : Underway k p (u :: pending) n) (hk : Coherent k) (hp : k.Closed p)
    (hget : (n.rederived u).specializations.get u = k.specializations.get u)
    (hu : k.Consults u → Settles k p (u :: pending) u ∧
      ∀ o, k.owner u = some o → Settles k p (u :: pending) o) :
    Underway k p pending (n.rederived u) := by
  have hrenamed := h.renamed (hget ▸ renamed_get_subset n u)
  have hconsults : (n.renamed u).Consults u → k.Consults u := by
    rintro ⟨hfeature, hrelationship, hwritten⟩
    rw [hrenamed.forest] at hfeature hrelationship
    refine ⟨hfeature, hrelationship, fun hk => hwritten (hasWrittenSupertype_of_rederived ?_)⟩
    rwa [hasWrittenSupertype, hget, rederived_forest, h.forest]
  have hconsulted := hrenamed.consulted hk hp fun hcons => by
    rw [hrenamed.forest]
    exact hu (hconsults hcons)
  constructor
  · exact (rederived_forest n u).trans h.forest
  · intro e he
    by_cases hue : u = e
    · exact hue ▸ hget
    · rw [rederived_get_of_ne n hue]
      exact h.get_of_notMem e (by simp [he, Ne.symm hue])
  · intro e
    by_cases hue : u = e
    · exact hue ▸ hget ▸ List.Subset.refl _
    · rw [rederived_get_of_ne n hue]
      exact h.get_subset e
  · intro x hx
    rw [rederived_memos] at hx
    split at hx
    · cases hx
    · exact hconsulted.settled x hx
  · intro x b hx hmemo
    rw [rederived_memos] at hmemo
    split at hmemo
    · cases hmemo
    · exact hconsulted.sound x b hx hmemo
  · intro x b hpx hnot hx hmemo
    rw [rederived_memos] at hmemo
    split at hmemo
    · cases hmemo
    · rename_i hux
      exact hconsulted.complete x b hpx (by simp [hnot, Ne.symm hux]) hx hmemo

/-- Relinking all that waits. -/
theorem foldl (h : Underway k p pending n) (hk : Coherent k) (hp : k.Closed p)
    (hn : pending.Nodup) (hfinal : pending.foldl Model.rederived n = k)
    (hall : ∀ before u after, pending = before ++ u :: after → k.Consults u →
      Settles k p (u :: after) u ∧ ∀ o, k.owner u = some o → Settles k p (u :: after) o) :
    Underway k p [] k := by
  induction pending generalizing n with
  | nil => exact hfinal ▸ h
  | cons u pending ih =>
    obtain ⟨hu, hn⟩ := List.nodup_cons.1 hn
    have hget : (n.rederived u).specializations.get u = k.specializations.get u := by
      rw [← hfinal]
      exact (foldl_get_of_notMem (fun n d hdu => rederived_get_of_ne n hdu) hu _).symm
    refine ih (h.rederived hk hp hget (hall [] u pending rfl)) hn hfinal ?_
    intro before v after hpending
    exact hall (u :: before) v after (by rw [hpending, List.cons_append])

end Underway

def rederivedAll (m : Model) (ds : List ElementId) : Model :=
  (m.preorder.filter (· ∈ ds)).foldl rederived (ds.foldl cleared m)

theorem foldl_forest {act : Model → ElementId → Model}
    (hact : ∀ m d, (act m d).toForest = m.toForest) (ds : List ElementId) (m : Model) :
    (ds.foldl act m).toForest = m.toForest :=
  List.foldlRecOn (motive := fun n : Model => n.toForest = m.toForest) ds act rfl
    fun n hn d _ => (hact n d).trans hn

theorem foldl_cleared_forest (ds : List ElementId) (m : Model) :
    (ds.foldl cleared m).toForest = m.toForest :=
  foldl_forest cleared_forest ds m

theorem rederivedAll_forest (m : Model) (ds : List ElementId) :
    (m.rederivedAll ds).toForest = m.toForest :=
  (foldl_forest rederived_forest _ _).trans (foldl_cleared_forest ds m)

/-- A step that succeeds for all declarations that exist, and keeps them, succeeds time after time. -/
theorem foldlM_eq_ok {step : Model → ElementId → Except BuildError Model}
    {act : Model → ElementId → Model} (hstep : ∀ m d, m.contains d → step m d = .ok (act m d))
    (hact : ∀ m d, (act m d).toForest = m.toForest) (h : ∀ e ∈ ds, m.contains e) :
    ds.foldlM step m = .ok (ds.foldl act m) := by
  induction ds generalizing m with
  | nil => rfl
  | cons d ds ih =>
    rw [List.foldlM_cons, hstep m d (h d List.mem_cons_self)]
    refine ih fun e he => ?_
    rw [hact]
    exact h e (List.mem_cons_of_mem d he)

theorem rederiveAll_eq_ok (h : ∀ e ∈ ds, m.contains e) :
    m.rederiveAll ds = .ok (m.rederivedAll ds) := by
  have hforest := foldl_cleared_forest ds m
  have hreset : ds.foldlM reset m = .ok (ds.foldl cleared m) :=
    foldlM_eq_ok (fun _ _ hd => reset_eq_ok_iff.2 ⟨hd, rfl⟩) cleared_forest h
  have hrelinked : ((ds.foldl cleared m).preorder.filter (· ∈ ds)).foldlM relink
      (ds.foldl cleared m) = .ok (m.rederivedAll ds) := by
    rw [hforest, rederivedAll]
    refine foldlM_eq_ok (fun _ _ hd => relink_eq_ok_iff.2 ⟨hd, rfl⟩) rederived_forest
      fun e he => ?_
    rw [hforest]
    exact h e (by simpa using (List.mem_filter.1 he).2)
  rw [rederiveAll, hreset]
  exact hrelinked

/-- What a reset sets to one value for its declaration alone, many resets set for all of theirs. -/
theorem foldl_cleared_read {α : Type} {a : α} (read : Model → ElementId → α)
    (hread : ∀ m d e, read (m.cleared d) e = if d = e then a else read m e) (ds : List ElementId)
    (m : Model) (e : ElementId) :
    read (ds.foldl cleared m) e = if e ∈ ds then a else read m e := by
  induction ds generalizing m with
  | nil => simp
  | cons d ds ih =>
    rw [List.foldl_cons, ih, hread]
    by_cases he : e ∈ ds
    · simp [he]
    · by_cases hde : d = e
      · simp [hde]
      · simp [he, hde, Ne.symm hde]

theorem foldl_cleared_get (ds : List ElementId) (m : Model) (e : ElementId) :
    (ds.foldl cleared m).specializations.get e = if e ∈ ds then [] else m.specializations.get e :=
  foldl_cleared_read (fun n => n.specializations.get) cleared_get ds m e

theorem foldl_cleared_memos (ds : List ElementId) (m : Model) (e : ElementId) :
    (ds.foldl cleared m).memos.get e = if e ∈ ds then .unknown else m.memos.get e :=
  foldl_cleared_read (fun n => n.memos.get) cleared_memos ds m e

theorem rederivedAll_get_of_notMem (m : Model) (he : e ∉ ds) :
    (m.rederivedAll ds).specializations.get e = m.specializations.get e := by
  have hpending : e ∉ m.preorder.filter (· ∈ ds) := by simp [he]
  rw [rederivedAll, foldl_get_of_notMem (fun n d hde => rederived_get_of_ne n hde) hpending,
    foldl_cleared_get, if_neg he]

theorem coherent_rederivedAll (h : Coherent m) (hknown : ∀ e ∈ ds, m.contains e) :
    Coherent (m.rederivedAll ds) := by
  have hcleared : Coherent (ds.foldl cleared m) := by
    refine h.of_subset (foldl_cleared_forest ds m) fun e => ?_
    rw [foldl_cleared_get]
    split
    · exact List.nil_subset _
    · exact List.Subset.refl _
  have hrelinked : Coherent (m.rederivedAll ds) ∧ (m.rederivedAll ds).toForest = m.toForest := by
    refine List.foldlRecOn (motive := fun n : Model => Coherent n ∧ n.toForest = m.toForest) _
      rederived ⟨hcleared, foldl_cleared_forest ds m⟩ ?_
    rintro n ⟨hn, hforest⟩ d hd
    have hmem : d ∈ ds := by simpa using (List.mem_filter.1 hd).2
    have hcontains : n.contains d := by
      rw [hforest]
      exact hknown d hmem
    exact ⟨hn.relink (relink_eq_ok_iff.2 ⟨hcontains, rfl⟩), (rederived_forest n d).trans hforest⟩
  exact hrelinked.1

theorem subset_of_filter_eq {before after : List ElementId}
    (h : m.preorder.filter (· ∈ ds) = before ++ after) : after ⊆ ds := by
  intro v hv
  have hmem : v ∈ m.preorder.filter (· ∈ ds) := h ▸ List.mem_append_right before hv
  simpa using (List.mem_filter.1 hmem).2

section Outside

variable (hm : m.Remembers) (hclosed : m.Closed (· ∉ ds))

include hclosed

theorem closed_rederivedAll : (m.rederivedAll ds).Closed (· ∉ ds) := by
  intro x hx
  rw [rederivedAll_get_of_notMem m hx]
  exact hclosed x hx

theorem belongs_rederivedAll (hx : x ∉ ds) :
    (m.rederivedAll ds).Belongs x c ↔ m.Belongs x c := by
  have hforest := rederivedAll_forest m ds
  constructor
  · intro h
    exact h.of_get hforest.symm (closed_rederivedAll hclosed)
      (fun y hy => (rederivedAll_get_of_notMem m hy).symm) hx
  · intro h
    exact h.of_get hforest hclosed (fun y hy => rederivedAll_get_of_notMem m hy) hx

/-- What does not lead to a revised declaration does not go back to what waits. -/
theorem settles_outside {pending : List ElementId} (hpending : pending ⊆ ds) (d : ElementId) :
    Settles (m.rederivedAll ds) (· ∉ ds) pending d := by
  intro t ht _ _ v hv htv
  exact htv.within (closed_rederivedAll hclosed) ht (hpending hv)

include hm

/-- When all that leads to a revised declaration has been reset, nothing wrong is remembered. -/
theorem underway_cleared (h : Coherent m) (hknown : ∀ e ∈ ds, m.contains e)
    (p : ElementId → Prop) :
    Underway (m.rederivedAll ds) p (m.preorder.filter (· ∈ ds)) (ds.foldl cleared m) := by
  have hforest := rederivedAll_forest m ds
  have hpending : ∀ {e}, e ∈ m.preorder.filter (· ∈ ds) ↔ e ∈ ds := by
    intro e
    rw [List.mem_filter, h.forest.mem_preorder_iff, decide_eq_true_iff]
    exact ⟨And.right, fun he => ⟨hknown e he, he⟩⟩
  have hmemo : ∀ {x b}, (ds.foldl cleared m).memos.get x = .done b →
      x ∉ ds ∧ m.memos.get x = .done b := by
    intro x b hmemo
    rw [foldl_cleared_memos] at hmemo
    split at hmemo
    · cases hmemo
    · exact ⟨‹_›, hmemo⟩
  constructor
  · exact (foldl_cleared_forest ds m).trans hforest.symm
  · intro e he
    rw [hpending] at he
    rw [foldl_cleared_get, if_neg he, rederivedAll_get_of_notMem m he]
  · intro e
    rw [foldl_cleared_get]
    split
    · exact List.nil_subset _
    · rw [rederivedAll_get_of_notMem m ‹_›]
      exact List.Subset.refl _
  · intro e he
    rw [foldl_cleared_memos] at he
    split at he
    · cases he
    · exact hm.settled e he
  · intro x b hx hb c hc
    obtain ⟨hout, hb⟩ := hmemo hb
    rw [hforest] at hx
    exact (belongs_rederivedAll hclosed hout).2 ((hm.done hx hb c).1 hc)
  · intro x b _ _ hx hb c hc
    obtain ⟨hout, hb⟩ := hmemo hb
    rw [hforest] at hx
    exact (hm.done hx hb c).2 ((belongs_rederivedAll hclosed hout).1 hc)

private theorem underway_outside (h : Coherent m) (hknown : ∀ e ∈ ds, m.contains e) :
    Underway (m.rederivedAll ds) (· ∉ ds) [] (m.rederivedAll ds) := by
  refine (underway_cleared hm hclosed h hknown _).foldl (coherent_rederivedAll h hknown)
    (closed_rederivedAll hclosed) (h.forest.preorder_nodup.filter _) rfl ?_
  intro before u after hpending _
  have hwaiting : u :: after ⊆ ds := subset_of_filter_eq hpending
  exact ⟨settles_outside hclosed hwaiting u, fun o _ => settles_outside hclosed hwaiting o⟩

private theorem underway_inOrder (h : Coherent m) (hknown : ∀ e ∈ ds, m.contains e)
    (horder : (m.rederivedAll ds).RelinksInOrder ds) :
    Underway (m.rederivedAll ds) (fun _ => True) [] (m.rederivedAll ds) := by
  refine (underway_cleared hm hclosed h hknown _).foldl (coherent_rederivedAll h hknown)
    (closed_true _) (h.forest.preorder_nodup.filter _) rfl ?_
  intro before u after hpending hconsults
  have hwaiting : u :: after ⊆ ds := subset_of_filter_eq hpending
  have hsettles : ∀ a, (a = u ∨ (m.rederivedAll ds).owner u = some a) →
      Settles (m.rederivedAll ds) (fun _ => True) (u :: after) a := by
    intro a ha t _ hdone hat v hv
    by_cases ht : t ∈ ds
    · have hmem : t ∈ before := by
        have hall : t ∈ m.preorder.filter (· ∈ ds) := by
          simp [ht, h.forest.mem_preorder_iff, hknown t ht]
        rw [hpending] at hall
        exact (List.mem_append.1 hall).resolve_right hdone
      refine horder before u after ?_ hconsults t hmem ?_ v hv
      · rw [rederivedAll_forest, hpending]
      · rcases ha with rfl | ha
        · exact Or.inl hat
        · exact Or.inr ⟨a, ha, hat⟩
    · exact settles_outside hclosed hwaiting a t ht hdone hat v hv
  exact ⟨hsettles u (Or.inl rfl), fun o ho => hsettles o (Or.inr ho)⟩

end Outside

/-- A model of declarations of the same kinds, of which the same has been derived. -/
structure SameTypes (m n : Model) : Prop where
  metaclass : n.metaclass = m.metaclass
  contains : n.contains = m.contains
  specializations : n.specializations = m.specializations
  memos : n.memos = m.memos

namespace SameTypes

theorem refl (m : Model) : SameTypes m m := ⟨rfl, rfl, rfl, rfl⟩

theorem trans (h : SameTypes m n) (h' : SameTypes n k) : SameTypes m k :=
  ⟨h'.metaclass.trans h.metaclass, h'.contains.trans h.contains,
    h'.specializations.trans h.specializations, h'.memos.trans h.memos⟩

theorem of_modify (m : Model) (d : ElementId) (change : Element → Element)
    (hkind : ∀ e, (change e).declaration.metaclass = e.declaration.metaclass) :
    SameTypes m (m.withForest (m.modify d change)) where
  metaclass := funext fun e => Forest.metaclass_modify m.toForest d e change hkind
  contains := funext fun e => Forest.contains_modify m.toForest d e change
  specializations := rfl
  memos := rfl

theorem perform {a : Command} (ha : a.Revises d) (hn : m.perform a = .ok n) : SameTypes m n := by
  cases a with
  | request e r =>
    obtain ⟨f, hf, rfl⟩ := exists_of_map_eq_ok hn
    obtain ⟨-, -, rfl⟩ := Forest.eq_of_request hf
    exact of_modify m e _ fun _ => rfl
  | clearRequests e =>
    obtain ⟨f, hf, rfl⟩ := exists_of_map_eq_ok hn
    rw [Forest.eq_of_clearRequests hf]
    exact of_modify m e _ fun _ => rfl
  | _ => cases ha

theorem performAll {cs : List Command} (hcs : ∀ a ∈ cs, a.Revises d) :
    SameTypes m (m.performAll cs) := by
  refine List.foldlRecOn (motive := fun n => SameTypes m n) cs _ (.refl m) fun n hn a ha => ?_
  cases hperformed : n.perform a with
  | error e => exact hn
  | ok k => exact hn.trans (perform (hcs a ha) hperformed)

theorem remembers (h : SameTypes m n) (hm : m.Remembers) : n.Remembers := by
  have hbelongs : n.Belongs = m.Belongs := by
    funext d c
    simp only [Belongs, Specializes, h.specializations, h.metaclass]
  constructor
  · simpa only [Settled, h.memos] using hm.settled
  · intro d b hd hmemo c
    rw [Forest.isType, h.metaclass] at hd
    rw [h.memos] at hmemo
    rw [hbelongs]
    exact hm.done hd hmemo c

end SameTypes

theorem Reachable.askAll (h : m.Reachable) (qs : List Query) : (m.askAll qs).Reachable :=
  List.foldlRecOn qs Model.ask h fun _ hn q _ => hn.ask q

/-- When the specializations of a declaration are revised and all that leads to it is reset and then
relinked, no declaration gets categories that do not belong to it. Those that do not lead to the
revised one get all of theirs, and all do when what is relinked earlier does not depend on what is
relinked later. -/
theorem categories_rederiveAll (h : m.Reachable) (qs : List Query) {cs : List Command}
    (hcs : ∀ a ∈ cs, a.Revises d) (hds : ∀ e, e ∈ ds ↔ m.contains e ∧ m.link.LeadsTo e d) :
    ∃ k, ((m.link.askAll qs).performAll cs).rederiveAll ds = .ok k ∧
      (∀ rs e c, ((k.askAll rs).askCategories e).1.has c → k.Belongs e c) ∧
      (∀ rs e c, e ∉ ds → (((k.askAll rs).askCategories e).1.has c ↔ k.Belongs e c)) ∧
      (k.RelinksInOrder ds →
        ∀ rs e c, ((k.askAll rs).askCategories e).1.has c ↔ k.Belongs e c) := by
  have hlinked : (m.link.askAll qs).Reachable := (h.perform .link rfl).askAll qs
  have hrevised : ((m.link.askAll qs).performAll cs).Reachable := hlinked.performAll cs
  have htypes : SameTypes (m.link.askAll qs) ((m.link.askAll qs).performAll cs) := .performAll hcs
  have hremembers := htypes.remembers ((remembers_link m).askAll h.coherent.link qs)
  have hedges := htypes.specializations.trans (askAll_sameEdges m.link qs).specializations
  have hcontains : ((m.link.askAll qs).performAll cs).contains = m.contains := by
    rw [htypes.contains, (askAll_sameEdges m.link qs).forest, link_forest]
  generalize (m.link.askAll qs).performAll cs = n at hrevised hremembers hedges hcontains
  have hcoherent : Coherent n := hrevised.coherent
  have hknown : ∀ e ∈ ds, n.contains e := by
    intro e he
    rw [hcontains]
    exact ((hds e).1 he).1
  have hclosed : n.Closed (· ∉ ds) := by
    intro x hx s hs hmem
    have hx' : n.contains x := Forest.contains_of_isType (hcoherent.isType_of_edge hs)
    rw [hcontains] at hx'
    rw [hedges] at hs
    exact hx ((hds x).2 ⟨hx', .head ⟨s, hs, rfl⟩ ((hds s.general).1 hmem).2⟩)
  have hfinal := coherent_rederivedAll hcoherent hknown
  have hout := underway_outside hremembers hclosed hcoherent hknown
  have hstays := closed_rederivedAll hclosed
  refine ⟨n.rederivedAll ds, rederiveAll_eq_ok hknown, ?_, ?_, ?_⟩
  · exact fun rs e c hc => (hout.askAll hfinal hstays rs).has_askCategories hc
  · exact fun rs e c he => (hout.askAll hfinal hstays rs).askCategories_has_iff hfinal hstays he
  · intro horder rs e c
    have hall := underway_inOrder hremembers hclosed hcoherent hknown horder
    have htrue := closed_true (n.rederivedAll ds)
    exact (hall.askAll hfinal htrue rs).askCategories_has_iff hfinal htrue trivial

theorem mem_iff_leadsTo (hds : ∀ e ∈ ds, m.contains e ∧ m.link.LeadsTo e d)
    (hother : ∀ e ∈ m.ids, e ∉ ds → e ≠ d ∧ m.link.specializations.get e = []) (e : ElementId) :
    e ∈ ds ↔ m.contains e ∧ m.link.LeadsTo e d := by
  constructor
  · exact hds e
  · rintro ⟨he, hed⟩
    by_contra hmem
    obtain ⟨hne, hget⟩ := hother e (Forest.mem_ids_iff.2 he) hmem
    rcases ReflTransGen.cases_head hed with rfl | ⟨t, ⟨s, hs, -⟩, -⟩
    · exact hne rfl
    · rw [hget] at hs
      exact List.not_mem_nil hs

/-- A class, one that specializes it, a feature typed by that one, and a structure. -/
def typedFeature : Model :=
  performAll { library := .empty }
    [.addRoot { metaclass := .klass }, .addRoot { metaclass := .klass },
      .addRoot { metaclass := .feature }, .addRoot { metaclass := .struct },
      .request ⟨1⟩ { target := .element ⟨0⟩, kind := .subclassification },
      .request ⟨2⟩ { target := .element ⟨1⟩, kind := .typing }]

/-- The same after linking and a query, when the class is to specialize the structure. -/
def revisedFeature : Model :=
  (typedFeature.link.askAll [.allCategories]).performAll
    [.request ⟨0⟩ { target := .element ⟨3⟩, kind := .subclassification }]

private theorem typedFeature_relinksInOrder :
    (revisedFeature.rederivedAll [⟨0⟩, ⟨1⟩, ⟨2⟩]).RelinksInOrder [⟨0⟩, ⟨1⟩, ⟨2⟩] := by
  have hlist : (revisedFeature.rederivedAll [⟨0⟩, ⟨1⟩, ⟨2⟩]).preorder.filter
      (· ∈ [⟨0⟩, ⟨1⟩, ⟨2⟩]) = [⟨0⟩, ⟨1⟩, ⟨2⟩] := by decide +kernel
  have hclosed : (revisedFeature.rederivedAll [⟨0⟩, ⟨1⟩, ⟨2⟩]).Closed (· ∈ [⟨0⟩, ⟨1⟩, ⟨3⟩]) := by
    unfold Closed
    decide +kernel
  intro before u after hpending hconsults t ht _ v hv htv
  rw [hlist] at hpending
  rcases before with _ | ⟨a, _ | ⟨b, _ | ⟨c, before⟩⟩⟩
  · exact absurd ht List.not_mem_nil
  · simp only [List.cons_append, List.nil_append, List.cons.injEq] at hpending
    obtain ⟨-, rfl, -⟩ := hpending
    exact absurd hconsults.1 (by decide +kernel)
  · simp only [List.cons_append, List.nil_append, List.cons.injEq] at hpending
    obtain ⟨rfl, rfl, rfl, rfl⟩ := hpending
    rw [List.mem_singleton.1 hv] at htv
    have hstart : t ∈ ([⟨0⟩, ⟨1⟩, ⟨3⟩] : List ElementId) := by
      rcases List.mem_cons.1 ht with rfl | ht
      · decide
      · rw [List.mem_singleton.1 ht]
        decide
    exact absurd (htv.within hclosed hstart) (by decide)
  · simp at hpending

theorem categories_rederiveAll_typedFeature :
    typedFeature.Reachable ∧
    (∀ e, e ∈ [⟨0⟩, ⟨1⟩, ⟨2⟩] ↔ typedFeature.contains e ∧ typedFeature.link.LeadsTo e ⟨0⟩) ∧
    ∃ k, revisedFeature.rederiveAll [⟨0⟩, ⟨1⟩, ⟨2⟩] = .ok k ∧
      (∀ e c, (k.askCategories e).1.has c ↔ k.Belongs e c) ∧
      (k.askCategories ⟨2⟩).1.has .struct := by
  have hreachable : typedFeature.Reachable := (Reachable.empty .empty).performAll _
  have hds : ∀ e, e ∈ [⟨0⟩, ⟨1⟩, ⟨2⟩] ↔
      typedFeature.contains e ∧ typedFeature.link.LeadsTo e ⟨0⟩ := by
    refine mem_iff_leadsTo ?_ (by decide +kernel)
    have hone : typedFeature.link.LeadsTo ⟨1⟩ ⟨0⟩ := .single (by decide +kernel)
    intro e he
    refine ⟨by revert e; decide +kernel, ?_⟩
    simp only [List.mem_cons, List.not_mem_nil, or_false] at he
    rcases he with rfl | rfl | rfl
    · exact .refl
    · exact hone
    · exact .head (by decide +kernel) hone
  have hcs : ∀ a ∈ [Command.request ⟨0⟩ { target := .element ⟨3⟩, kind := .subclassification }],
      a.Revises ⟨0⟩ := by simp [Command.Revises]
  obtain ⟨k, hk, -, -, hall⟩ := categories_rederiveAll hreachable [.allCategories] hcs hds
  have hknown : ∀ e ∈ [⟨0⟩, ⟨1⟩, ⟨2⟩], revisedFeature.contains e := by decide +kernel
  obtain rfl : k = revisedFeature.rederivedAll [⟨0⟩, ⟨1⟩, ⟨2⟩] :=
    Except.ok.inj (hk.symm.trans (rederiveAll_eq_ok hknown))
  have hexact := hall typedFeature_relinksInOrder []
  have hpath : (revisedFeature.rederivedAll [⟨0⟩, ⟨1⟩, ⟨2⟩]).Specializes ⟨2⟩ ⟨3⟩ := by
    have hfirst : (revisedFeature.rederivedAll [⟨0⟩, ⟨1⟩, ⟨2⟩]).Specializes ⟨2⟩ ⟨1⟩ :=
      .single (by decide +kernel)
    have hsecond : (revisedFeature.rederivedAll [⟨0⟩, ⟨1⟩, ⟨2⟩]).Specializes ⟨1⟩ ⟨0⟩ :=
      .single (by decide +kernel)
    exact (hfirst.trans hsecond).trans (.single (by decide +kernel))
  exact ⟨hreachable, hds, _, hk, hexact, (hexact ⟨2⟩ .struct).2 ⟨⟨3⟩, hpath, by decide +kernel⟩⟩

/-- A class that specializes a later one, a feature that it types, and a structure. -/
def lateClass : Model :=
  performAll { library := .empty }
    [.addRoot { metaclass := .klass }, .addRoot { metaclass := .feature },
      .addRoot { metaclass := .klass }, .addRoot { metaclass := .struct },
      .request ⟨0⟩ { target := .element ⟨2⟩, kind := .subclassification },
      .request ⟨1⟩ { target := .element ⟨0⟩, kind := .typing }]

/-- The later class is to specialize the structure. When the feature is relinked the first class has
its specialization already, but the later one does not. What is remembered then of the first class is
kept. -/
theorem rederiveAll_keeps_outdated :
    lateClass.Reachable ∧
    (∀ e, e ∈ [⟨0⟩, ⟨1⟩, ⟨2⟩] ↔ lateClass.contains e ∧ lateClass.link.LeadsTo e ⟨2⟩) ∧
    ∃ k, (lateClass.link.performAll [.clearRequests ⟨2⟩, .request ⟨2⟩
        { target := .element ⟨3⟩, kind := .subclassification }]).rederiveAll
          [⟨0⟩, ⟨1⟩, ⟨2⟩] = .ok k ∧
      k.Belongs ⟨0⟩ .struct ∧ ¬ (k.askCategories ⟨0⟩).1.has .struct := by
  refine ⟨(Reachable.empty .empty).performAll _, mem_iff_leadsTo ?_ (by decide +kernel), _,
    rederiveAll_eq_ok (by decide +kernel), ⟨⟨3⟩, ?_, by decide +kernel⟩, by decide +kernel⟩
  · have hone : lateClass.link.LeadsTo ⟨0⟩ ⟨2⟩ := .single (by decide +kernel)
    intro e he
    refine ⟨by revert e; decide +kernel, ?_⟩
    simp only [List.mem_cons, List.not_mem_nil, or_false] at he
    rcases he with rfl | rfl | rfl
    · exact hone
    · exact .head (by decide +kernel) hone
    · exact .refl
  · refine ReflTransGen.trans (b := ⟨2⟩) (.single ?_) (.single ?_)
    · decide +kernel
    · decide +kernel

end Model
end Kerml
