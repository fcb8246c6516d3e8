import Kerml.Proofs.Link.Bound
import Kerml.Proofs.Link.Supplied

/-!
# Roles by which features take supertypes

When a feature is linked the role by which it takes its supertype from the library is chosen by
categories that may lack what declarations get from the library later on. They are those after
linking when nothing that the feature or its owner leads to is supplied too late.
-/
namespace Kerml.Model

open Relation

variable {m n k : Model} {d e t u v : ElementId} {c : Category} {before after : List ElementId}
  {r : SupertypeRole}

theorem hasWrittenSupertype_link (h : m.WellFormed) (hd : m.isType d) :
    m.link.hasWrittenSupertype d = (m.writtenEdges d).any fun s =>
      s.kind.includes (m.metaclass d).generalKind || s.kind.includes .conjugation := by
  have hget : m.link.specializations.get d = m.writtenEdges d ++ m.impliedEdges d := by
    rw [link_get, complete_get h hd]
  exact hasWrittenSupertype_of_get (link_forest m) hget fun s hs => isImplied_of_mem_impliedEdges hs

def rolesBy (m : Model) (d : ElementId) (r : SupertypeRole) : List SupertypeRole :=
  r :: if m.isParticipant d then [.participant] else []

/-- When a model is linked a declaration takes its supertype by the given role. What the library has
for the role is added to what is written down, or reported where it leads nowhere. -/
structure TakesRole (m : Model) (d : ElementId) (r : SupertypeRole) : Prop where
  edges : m.link.specializations.get d =
    ((m.rolesBy d r).filterMap (m.link.implied? d)).foldl Specialization.record (m.writtenEdges d)
  report : m.link.report.about d = (m.requests d).filterMap (m.unlinked.unbound? d) ++
    ((m.rolesBy d r).filterMap (m.link.missing? d) ++
      (m.imports d).filterMap (m.link.importDiagnostic? d))

/-- The specializations written down for a declaration by which it takes over categories. -/
def writtenSpecializations (m : Model) (d : ElementId) : List Specialization :=
  Specialization.matching (m.writtenEdges d) .specialization

/-- The categories of all that specializations lead to. -/
def categoriesOver (m : Model) (ss : List Specialization) : Categories :=
  ss.foldl (fun b s => b ∪ (m.askCategories s.general).1) ∅

private theorem roles_eq (h : m.WellFormed) (hd : m.isType d) (hfree : ¬ m.link.hasWrittenSupertype d) :
    m.roles d = m.rolesBy d ((m.supplied d).askRole d).1 := by
  rw [hasWrittenSupertype_link h hd] at hfree
  rw [roles, if_neg hfree]
  rfl

private theorem takesRole_of_roles (h : m.WellFormed) (hd : m.isType d) (hroles : m.roles d = m.rolesBy d r) :
    m.TakesRole d r where
  edges := by
    rw [← hroles, foldl_record_implied, link_get, complete_get h hd]
  report := by
    rw [about_link h (Forest.contains_of_isType hd), if_pos hd, hroles]

/-- The categories of a feature as they are found for its role, after those of its owner. -/
def ownCategories (m : Model) (d : ElementId) : Categories :=
  ((m.askOwnerCategories d).2.askCategories d).1

private theorem askRole_feature (hd : n.metaclass d = .feature) : (n.askRole d).1 =
    featureRole (n.modifiers d).isComposite (n.askOwnerCategories d).1 (n.ownCategories d) := by
  simp [askRole, ownCategories, hd, Metaclass.isRelationship, Metaclass.isFeature,
    Metaclass.capabilities]

theorem has_categoriesOver (h : Coherent m) (hm : m.Remembers) (ss : List Specialization) :
    (m.categoriesOver ss).has c ↔ ∃ s ∈ ss, m.Belongs s.general c := by
  rw [categoriesOver]
  induction ss using List.reverseRecOn with
  | nil => simp
  | append_singleton ss s ih =>
    simp [List.foldl_append, ih, askCategories_has_iff_belongs h hm, or_and_right, exists_or]

theorem has_askOwnerCategories (m : Model) (d : ElementId) : (m.askOwnerCategories d).1.has c ↔
    ∃ o, m.owner d = some o ∧ (m.askCategories o).1.has c := by
  rw [askOwnerCategories]
  cases m.owner d <;> simp

theorem has_askOwnerCategories_iff_belongs (h : Coherent m) (hm : m.Remembers) (d : ElementId) :
    (m.askOwnerCategories d).1.has c ↔ ∃ o, m.owner d = some o ∧ m.Belongs o c := by
  simp only [has_askOwnerCategories, askCategories_has_iff_belongs h hm]

theorem mem_writtenSpecializations {s : Specialization} : s ∈ m.writtenSpecializations d ↔
    s ∈ m.writtenEdges d ∧ s.kind.includes .specialization :=
  List.mem_filter

/-- A feature that has only what is written down belongs to what that leads to. -/
theorem belongs_feature (hd : k.metaclass d = .feature)
    (hget : k.specializations.get d = m.writtenEdges d) :
    k.Belongs d c ↔ ∃ s ∈ m.writtenSpecializations d, k.Belongs s.general c := by
  constructor
  · rintro ⟨e, hde, he⟩
    rcases ReflTransGen.cases_head hde with rfl | ⟨t, ⟨s, hs, hkind, rfl⟩, hte⟩
    · rw [hd] at he
      cases c <;> cases he
    · exact ⟨s, mem_writtenSpecializations.2 ⟨hget ▸ hs, hkind⟩, e, hte, he⟩
  · rintro ⟨s, hs, e, hse, he⟩
    obtain ⟨hs, hkind⟩ := mem_writtenSpecializations.1 hs
    exact ⟨e, .head ⟨s, hget.symm ▸ hs, hkind, rfl⟩ hse, he⟩

/-- The linked model in which one declaration has only what is written down. -/
def linkedBut (m : Model) (d : ElementId) : Model :=
  { m.link with specializations := m.link.specializations.put d (m.writtenEdges d) }

/-- The one declaration or its owner leads to the other one. -/
def Concerns (k : Model) (d t : ElementId) : Prop :=
  k.Specializes d t ∨ ∃ o, k.owner d = some o ∧ k.Specializes o t

/-- A declaration other than the given one takes supertypes from the library, and has not had its turn
after the ones before. -/
def Waits (m : Model) (d : ElementId) (before : List ElementId) (v : ElementId) : Prop :=
  v ∉ before ∧ v ≠ d ∧ m.link.specializations.get v ≠ m.writtenEdges v

/-- Supertypes are added in time for a declaration. What it and its owner lead to does not lead back to
it and has had its turn before. Nor have the categories of anything among it been asked for while
something waited that it leads to. -/
structure SuppliesInOrder (m : Model) (d : ElementId) : Prop where
  apart : ∀ s ∈ m.writtenSpecializations d, ¬ m.link.Specializes s.general d
  owner_apart : ∀ o, m.owner d = some o → ¬ m.link.Specializes o d
  ready : ∀ v, (m.linkedBut d).Concerns d v → ¬ m.Waits d (m.preorder.takeWhile (· ≠ d)) v
  fresh : ∀ before u after, m.preorder.takeWhile (· ≠ d) = before ++ u :: after →
    m.link.Consults u → ∀ t, (m.linkedBut d).Concerns u t → (m.linkedBut d).Concerns d t →
      ¬ m.Waits d before t → ∀ v, m.Waits d before v → ¬ (m.linkedBut d).Specializes t v

theorem linkedBut_get (m : Model) (d e : ElementId) : (m.linkedBut d).specializations.get e =
    if d = e then m.writtenEdges d else m.link.specializations.get e :=
  Column.get_put ..

theorem linkedBut_forest (m : Model) (d : ElementId) : (m.linkedBut d).toForest = m.toForest :=
  link_forest m

theorem linkedBut_get_subset (h : m.WellFormed) (d e : ElementId) :
    (m.linkedBut d).specializations.get e ⊆ m.link.specializations.get e := by
  rw [linkedBut_get]
  split
  · subst e
    exact writtenEdges_subset_link h d
  · exact List.Subset.refl _

theorem coherent_linkedBut (h : m.Reachable) (d : ElementId) : Coherent (m.linkedBut d) :=
  h.coherent.link.of_subset rfl (linkedBut_get_subset h.coherent.forest d)

theorem Concerns.trans (h : k.Concerns d t) (ht : k.Specializes t v) : k.Concerns d v := by
  rcases h with h | ⟨o, ho, h⟩
  · exact Or.inl (h.trans ht)
  · exact Or.inr ⟨o, ho, h.trans ht⟩

/-- What does not lead to a declaration specializes the same whatever that one specializes. -/
theorem specializes_linkedBut (ht : ¬ m.link.Specializes t d) (h : m.link.Specializes t e) :
    (m.linkedBut d).Specializes t e := by
  induction h with
  | refl => exact .refl
  | @tail x y htx hxy ih =>
    have hdx : d ≠ x := by
      rintro rfl
      exact ht htx
    obtain ⟨s, hs, hkind, hsy⟩ := hxy
    exact ih.tail ⟨s, by rwa [linkedBut_get, if_neg hdx], hkind, hsy⟩

theorem belongs_linkedBut (ht : ¬ m.link.Specializes t d) (hc : m.link.Belongs t c) :
    (m.linkedBut d).Belongs t c := by
  obtain ⟨e, hte, he⟩ := hc
  exact ⟨e, specializes_linkedBut ht hte, he⟩

theorem belongs_of_linkedBut (h : m.WellFormed) (hc : (m.linkedBut d).Belongs t c) :
    m.link.Belongs t c := by
  obtain ⟨e, hte, he⟩ := hc
  exact ⟨e, hte.mono (linkedBut_get_subset h d), he⟩

theorem lags_supplied (h : m.WellFormed) (horder : m.preorder = before ++ after) (hd : d ∉ before) :
    Lags (m.linkedBut d) (before.foldl addSupertypes m.named) := by
  induction before using List.reverseRecOn generalizing after with
  | nil =>
    refine .of_unknown ((named_forest m).trans (linkedBut_forest m d).symm) (fun e => ?_)
      (named_memos m)
    rw [List.foldl_nil, named_get h, linkedBut_get]
    split
    · subst e
      exact List.Subset.refl _
    · exact writtenEdges_subset_link h e
  | append_singleton before u ih =>
    rw [List.mem_append, List.mem_singleton, not_or] at hd
    have hget := foldl_addSupertypes_get h horder u
    rw [if_pos (by simp), List.foldl_append] at hget
    rw [List.append_assoc] at horder
    rw [List.foldl_append]
    refine (ih horder hd.1).addSupertypes ?_
    rw [linkedBut_get, if_neg hd.2]
    exact hget ▸ List.Subset.refl _

theorem lags_supplied_self (h : m.WellFormed) (d : ElementId) :
    Lags (m.linkedBut d) (m.supplied d) :=
  lags_supplied h List.takeWhile_append_dropWhile.symm (notMem_takeWhile_ne d m.preorder)

theorem coherent_named (h : m.Reachable) : Coherent m.named := by
  refine h.coherent.link.of_subset ((named_forest m).trans (link_forest m).symm) fun e => ?_
  rw [named_get h.coherent.forest]
  exact writtenEdges_subset_link h.coherent.forest e

/-- What is written down is never lacking. -/
theorem keepsUp_named (h : m.Reachable) (ds : List ElementId) :
    KeepsUp m.named (fun _ => True) (fun _ => False) (ds.foldl addSupertypes m.named) := by
  refine List.foldlRecOn
    (motive := fun n => KeepsUp m.named (fun _ => True) (fun _ => False) n) ds addSupertypes
    (.of_unknown rfl (fun e _ => List.Subset.refl _) (named_memos m)) fun n hn u _ => ?_
  refine hn.addSupertypes (coherent_named h) (fun _ _ => trivial) (fun _ _ _ _ _ _ _ _ => id) ?_
    (fun hwaits => hwaits.elim) fun _ _ => id
  exact List.Subset.trans (hn.subset_get u id) (subset_addSupertypes n u u)

private theorem consults_link (h : m.WellFormed) (horder : m.preorder = before ++ u :: after)
    (hu : (before.foldl addSupertypes m.named).Consults u) : m.link.Consults u := by
  have hforest : (before.foldl addSupertypes m.named).toForest = m.toForest :=
    (SameNames.foldl addSupertypes_sameNames before m.named).forest.trans (named_forest m)
  obtain ⟨hfeature, hrelationship, hwritten⟩ := hu
  rw [hforest] at hfeature hrelationship
  have hu : u ∉ before := by
    have hnodup := h.preorder_nodup
    rw [horder] at hnodup
    exact fun hmem => (List.nodup_append.1 hnodup).2.2 u hmem u List.mem_cons_self rfl
  have hget : (before.foldl addSupertypes m.named).specializations.get u =
      m.writtenEdges u ++ [] := by
    rw [foldl_addSupertypes_get h horder, if_neg hu, List.append_nil]
  refine ⟨by rwa [link_forest], by rwa [link_forest], ?_⟩
  rwa [hasWrittenSupertype_link h (Forest.isType_of_isFeature hfeature),
    ← hasWrittenSupertype_of_get hforest hget fun s hs => absurd hs List.not_mem_nil]

/-- Nothing is lacking of what a declaration and its owner lead to, if it is supplied in order. -/
theorem keepsUp_supplied (h : m.Reachable) (hd : m.SuppliesInOrder d)
    (hsplit : m.preorder.takeWhile (· ≠ d) = before ++ after) :
    KeepsUp (m.linkedBut d) ((m.linkedBut d).Concerns d) (m.Waits d before)
      (before.foldl addSupertypes m.named) := by
  have hforest : m.WellFormed := h.coherent.forest
  have hk : Coherent (m.linkedBut d) := coherent_linkedBut h d
  have hnot := notMem_takeWhile_ne d m.preorder
  have horder : ∀ {before after}, m.preorder.takeWhile (· ≠ d) = before ++ after →
      m.preorder = before ++ (after ++ m.preorder.dropWhile (· ≠ d)) := by
    intro before after hsplit
    rw [← List.append_assoc, ← hsplit, List.takeWhile_append_dropWhile]
  induction before using List.reverseRecOn generalizing after with
  | nil =>
    refine .of_unknown ((named_forest m).trans (linkedBut_forest m d).symm) (fun e he => ?_)
      (named_memos m)
    rw [List.foldl_nil, named_get hforest, linkedBut_get]
    by_cases hde : d = e
    · rw [if_pos hde, hde]
      exact List.Subset.refl _
    · have hwritten : m.link.specializations.get e = m.writtenEdges e := by
        by_contra hne
        exact he ⟨List.not_mem_nil, Ne.symm hde, hne⟩
      rw [if_neg hde, hwritten]
      exact List.Subset.refl _
  | append_singleton before u ih =>
    have hturn := foldl_addSupertypes_get hforest (horder hsplit) u
    rw [if_pos (by simp), List.foldl_append] at hturn
    rw [List.append_assoc, List.singleton_append] at hsplit
    rw [hsplit, List.mem_append, List.mem_cons, not_or, not_or] at hnot
    obtain ⟨hbefore, hdu, -⟩ := hnot
    have hlags := lags_supplied hforest (horder hsplit) hbefore
    rw [List.foldl_append]
    refine (ih hsplit).addSupertypes hk (fun hx hxt => hx.trans hxt) ?_ ?_ ?_ ?_
    · intro e he t ht hready het v htv hv
      have hconsults := consults_link hforest (horder hsplit) (consults_of_mem_informants he)
      have hpath : (m.linkedBut d).Specializes e t := het.mono hlags.get_subset
      refine hd.fresh before u after hsplit hconsults t ?_ ht hready v hv htv
      rcases mem_informants he with rfl | howner
      · exact Or.inl hpath
      · rw [hlags.forest] at howner
        exact Or.inr ⟨e, howner, hpath⟩
    · rw [linkedBut_get, if_neg hdu]
      exact hturn ▸ List.Subset.refl _
    · rintro ⟨hu, -, hne⟩ hsame
      rw [foldl_addSupertypes_get hforest (horder hsplit) u, if_neg hu] at hsame
      exact hne (hturn.symm.trans hsame)
    · rintro e hue ⟨he, hrest⟩
      refine ⟨?_, hrest⟩
      rw [List.mem_append, List.mem_singleton]
      exact fun hmem => hmem.elim he (Ne.symm hue)

/-- Supertypes are added in time for a declaration if nothing that it or its owner leads to gets any, the
declaration itself apart. -/
theorem suppliesInOrder_of_settled
    (hapart : ∀ s ∈ m.writtenSpecializations d, ¬ m.link.Specializes s.general d)
    (howner : ∀ o, m.owner d = some o → ¬ m.link.Specializes o d)
    (hsettled : ∀ v, (m.linkedBut d).Concerns d v → v ≠ d →
      m.link.specializations.get v = m.writtenEdges v) : m.SuppliesInOrder d where
  apart := hapart
  owner_apart := howner
  ready v hv := fun ⟨_, hne, hwaits⟩ => hwaits (hsettled v hv hne)
  fresh _ _ _ _ _ _ _ ht _ v := fun ⟨_, hne, hwaits⟩ htv => hwaits (hsettled v (ht.trans htv) hne)

theorem remembers_named (m : Model) : m.named.Remembers where
  settled d := by simp [named_memos]
  done _ hmemo := by simp [named_memos] at hmemo

/-- What a feature and its owner are found to belong to when its role is chosen is not too much. -/
theorem Lags.askRole (h : Lags k n) (d : ElementId) :
    ((n.ownCategories d).has c → k.Belongs d c) ∧
    ((n.askOwnerCategories d).1.has c → ∃ o, k.owner d = some o ∧ k.Belongs o c) := by
  have hasked : Lags k (n.askOwnerCategories d).2 := by
    rw [askOwnerCategories]
    split
    · exact h.askCategories _
    · exact h
  refine ⟨hasked.has_askCategories, fun hc => ?_⟩
  obtain ⟨o, ho, hc⟩ := (has_askOwnerCategories n d).1 hc
  exact ⟨o, h.forest ▸ ho, h.has_askCategories hc⟩

/-- It is not too little if nothing waits that the feature or its owner leads to. -/
theorem KeepsUp.askRole {p waits : ElementId → Prop} (h : KeepsUp k p waits n) (hk : Coherent k)
    (hp : ∀ {x t}, p x → k.Specializes x t → p t) (hready : ∀ v, p v → ¬ waits v)
    (hd : p d) (howner : ∀ o, k.owner d = some o → p o) :
    (k.Belongs d c → (n.ownCategories d).has c) ∧
    ((∃ o, k.owner d = some o ∧ k.Belongs o c) → (n.askOwnerCategories d).1.has c) := by
  have hclean : ∀ {x v}, p x → k.Specializes x v → ¬ waits v := fun hx hxv => hready _ (hp hx hxv)
  have hasked : KeepsUp k p waits (n.askOwnerCategories d).2 := by
    rw [askOwnerCategories]
    split
    · exact h.askCategories hk hp fun t ht _ _ v htv => hclean ht htv
    · exact h
  refine ⟨hasked.has_askCategories hk hp hd fun v => hclean hd, ?_⟩
  rintro ⟨o, ho, hc⟩
  have hfound := h.has_askCategories hk hp (howner o ho) (fun v => hclean (howner o ho)) hc
  exact (has_askOwnerCategories n d).2 ⟨o, h.forest ▸ ho, hfound⟩

/-- So what lags behind a model and keeps up with it asks for the categories that there are in it. -/
theorem has_ownCategories_iff {waits : ElementId → Prop} (hlags : Lags k n)
    (hkeeps : KeepsUp k (k.Concerns d) waits n) (hk : Coherent k)
    (hready : ∀ v, k.Concerns d v → ¬ waits v) :
    ((n.ownCategories d).has c ↔ k.Belongs d c) ∧
    ((n.askOwnerCategories d).1.has c ↔ ∃ o, k.owner d = some o ∧ k.Belongs o c) := by
  obtain ⟨hself, howner⟩ := hlags.askRole (c := c) d
  obtain ⟨hself', howner'⟩ := hkeeps.askRole (d := d) (c := c) hk (fun hx hxt => hx.trans hxt)
    hready (Or.inl .refl) fun o ho => Or.inr ⟨o, ho, .refl⟩
  exact ⟨⟨hself, hself'⟩, ⟨howner, howner'⟩⟩

theorem askRole_congr (hforest : n.toForest = m.toForest)
    (hself : ∀ c, (n.ownCategories d).has c ↔ (m.ownCategories d).has c)
    (howner : ∀ c, (n.askOwnerCategories d).1.has c ↔ (m.askOwnerCategories d).1.has c) :
    (n.askRole d).1 = (m.askRole d).1 := by
  have hown : n.ownCategories d = m.ownCategories d :=
    Categories.eq_of_has fun c => Bool.eq_iff_iff.2 (hself c)
  have howners : (n.askOwnerCategories d).1 = (m.askOwnerCategories d).1 :=
    Categories.eq_of_has fun c => Bool.eq_iff_iff.2 (howner c)
  have hasked := (askOwnerCategories_sameButMemos n d).sameEdges.forest
  have hasked' := (askOwnerCategories_sameButMemos m d).sameEdges.forest
  rw [ownCategories, ownCategories] at hown
  simp only [askRole, hasked, hasked', hforest]
  cases m.metaclass d <;> simp [hown, howners, Metaclass.isRelationship, Metaclass.isFeature,
    Metaclass.capabilities]

/-- The categories that the role of a feature is chosen by are among those after linking. -/
theorem askRole_supplied_le (h : m.Reachable) (hd : m.metaclass d = .feature) (c : Category) :
    (((m.supplied d).ownCategories d).has c →
      (m.link.categoriesOver (m.writtenSpecializations d)).has c) ∧
    (((m.supplied d).askOwnerCategories d).1.has c → (m.link.askOwnerCategories d).1.has c) := by
  have hforest : m.WellFormed := h.coherent.forest
  have hlags : Lags (m.linkedBut d) (m.supplied d) := lags_supplied_self hforest d
  have hkind : (m.linkedBut d).metaclass d = .feature := by rwa [linkedBut_forest]
  have hget : (m.linkedBut d).specializations.get d = m.writtenEdges d := by
    rw [linkedBut_get, if_pos rfl]
  obtain ⟨hself, howner⟩ := hlags.askRole (c := c) d
  rw [has_categoriesOver h.coherent.link (remembers_link m),
    has_askOwnerCategories_iff_belongs h.coherent.link (remembers_link m)]
  constructor
  · intro hc
    obtain ⟨s, hs, hc⟩ := (belongs_feature hkind hget).1 (hself hc)
    exact ⟨s, hs, belongs_of_linkedBut hforest hc⟩
  · intro hc
    obtain ⟨o, ho, hc⟩ := howner hc
    exact ⟨o, ho, belongs_of_linkedBut hforest hc⟩

/-- They are at least those that follow from what is written down. -/
theorem le_askRole_supplied (h : m.Reachable) (hd : m.metaclass d = .feature) (c : Category) :
    ((m.named.categoriesOver (m.writtenSpecializations d)).has c →
      ((m.supplied d).ownCategories d).has c) ∧
    ((m.named.askOwnerCategories d).1.has c → ((m.supplied d).askOwnerCategories d).1.has c) := by
  have hkind : m.named.metaclass d = .feature := by rwa [named_forest]
  have hkeeps : KeepsUp m.named (fun _ => True) (fun _ => False) (m.supplied d) := keepsUp_named h _
  obtain ⟨hself, howner⟩ := hkeeps.askRole (d := d) (c := c) (coherent_named h)
    (fun _ _ => trivial) (fun _ _ => id) trivial fun _ _ => trivial
  rw [has_categoriesOver (coherent_named h) (remembers_named m),
    has_askOwnerCategories_iff_belongs (coherent_named h) (remembers_named m)]
  exact ⟨fun hc => hself ((belongs_feature hkind (named_get h.coherent.forest d)).2 hc), howner⟩

/-- They are all of those after linking if the feature is supplied in order. -/
theorem le_askRole_supplied_of_inOrder (h : m.Reachable) (hd : m.metaclass d = .feature)
    (horder : m.SuppliesInOrder d) (c : Category) :
    ((m.link.categoriesOver (m.writtenSpecializations d)).has c →
      ((m.supplied d).ownCategories d).has c) ∧
    ((m.link.askOwnerCategories d).1.has c → ((m.supplied d).askOwnerCategories d).1.has c) := by
  have hk : Coherent (m.linkedBut d) := coherent_linkedBut h d
  have hkind : (m.linkedBut d).metaclass d = .feature := by rwa [linkedBut_forest]
  have hget : (m.linkedBut d).specializations.get d = m.writtenEdges d := by
    rw [linkedBut_get, if_pos rfl]
  have hkeeps := keepsUp_supplied h horder (List.append_nil _).symm
  obtain ⟨hself, howner⟩ := hkeeps.askRole (d := d) (c := c) hk (fun hx hxt => hx.trans hxt)
    horder.ready (Or.inl .refl) fun o ho => Or.inr ⟨o, ho, .refl⟩
  rw [has_categoriesOver h.coherent.link (remembers_link m),
    has_askOwnerCategories_iff_belongs h.coherent.link (remembers_link m)]
  constructor
  · rintro ⟨s, hs, hc⟩
    exact hself ((belongs_feature hkind hget).2 ⟨s, hs, belongs_linkedBut (horder.apart s hs) hc⟩)
  · rintro ⟨o, ho, hc⟩
    rw [link_forest] at ho
    exact howner ⟨o, by rwa [linkedBut_forest], belongs_linkedBut (horder.owner_apart o ho) hc⟩

/-- A feature that is not given a supertype in writing takes one from the library by a role that is
chosen by its categories and those of its owner. They are at least the categories that follow from what
is written down, and at most those after linking. They are those after linking if supertypes are added
in time for it. -/
theorem link_takesRole (h : m.Reachable) (hd : m.metaclass d = .feature)
    (hfree : ¬ m.link.hasWrittenSupertype d) :
    ∃ own owners : Categories,
      m.TakesRole d (featureRole (m.modifiers d).isComposite owners own) ∧
      (∀ c, ((m.named.categoriesOver (m.writtenSpecializations d)).has c → own.has c) ∧
        (own.has c → (m.link.categoriesOver (m.writtenSpecializations d)).has c)) ∧
      (∀ c, ((m.named.askOwnerCategories d).1.has c → owners.has c) ∧
        (owners.has c → (m.link.askOwnerCategories d).1.has c)) ∧
      (m.SuppliesInOrder d →
        own = m.link.categoriesOver (m.writtenSpecializations d) ∧
        owners = (m.link.askOwnerCategories d).1) := by
  have hforest : m.WellFormed := h.coherent.forest
  have htype : m.isType d := Forest.isType_of_isFeature (by rw [hd]; rfl)
  have hsupplied : (m.supplied d).toForest = m.toForest := supplied_forest m d
  have hrole := askRole_feature (n := m.supplied d) (d := d) (by rwa [hsupplied])
  rw [hsupplied] at hrole
  have hupper := askRole_supplied_le h hd
  have hlower := le_askRole_supplied h hd
  refine ⟨_, _, hrole ▸ takesRole_of_roles hforest htype (roles_eq hforest htype hfree),
    fun c => ⟨(hlower c).1, (hupper c).1⟩, fun c => ⟨(hlower c).2, (hupper c).2⟩, fun horder => ?_⟩
  have hall := le_askRole_supplied_of_inOrder h hd horder
  constructor
  · exact Categories.eq_of_has fun c => Bool.eq_iff_iff.2 ⟨(hupper c).1, (hall c).1⟩
  · exact Categories.eq_of_has fun c => Bool.eq_iff_iff.2 ⟨(hupper c).2, (hall c).2⟩

/-- A composite feature that is typed by the step it belongs to. The step gets a structure from the
library, by which the feature becomes a part of a structure. -/
def stepPart : Model :=
  performAll
    { library := (SupertypeTable.empty.insert .step .base "S").insert .feature .subobject "T" }
    [.addRoot { metaclass := .struct, name := some "S" },
      .addRoot { metaclass := .step, name := some "s" },
      .add ⟨1⟩ { metaclass := .feature, name := some "f", modifiers := { isComposite := true } },
      .addRoot { metaclass := .type, name := some "T" },
      .request ⟨2⟩ { target := .element ⟨1⟩, kind := .typing }]

private theorem stepPart_suppliesInOrder : stepPart.SuppliesInOrder ⟨2⟩ := by
  have hlinked : stepPart.link.Closed (· ∈ [⟨1⟩, ⟨0⟩]) := by
    unfold Closed
    decide +kernel
  have hclosed : (stepPart.linkedBut ⟨2⟩).Closed (· ∈ [⟨2⟩, ⟨1⟩, ⟨0⟩]) ∧
      (stepPart.linkedBut ⟨2⟩).Closed (· ∈ [⟨1⟩, ⟨0⟩]) ∧
      (stepPart.linkedBut ⟨2⟩).Closed (· ∈ [⟨0⟩]) := by
    unfold Closed
    decide +kernel
  obtain ⟨hall, hstep, hstruct⟩ := hclosed
  have howner : stepPart.owner ⟨2⟩ = some ⟨1⟩ := by decide +kernel
  have hconcerned : ∀ v, (stepPart.linkedBut ⟨2⟩).Concerns ⟨2⟩ v → v ∈ [⟨2⟩, ⟨1⟩, ⟨0⟩] := by
    rintro v (hv | ⟨o, ho, hv⟩)
    · exact hv.within hall (by decide)
    · rw [linkedBut_forest, howner] at ho
      cases ho
      exact hv.within hall (by decide)
  have hbefore : stepPart.preorder.takeWhile (· ≠ ⟨2⟩) = [⟨0⟩, ⟨1⟩] := by decide +kernel
  constructor
  · have hwritten : stepPart.writtenSpecializations ⟨2⟩ =
        [{ general := ⟨1⟩, kind := .typing }] := by decide +kernel
    intro s hs hback
    rw [hwritten, List.mem_singleton] at hs
    subst s
    exact absurd (hback.within hlinked (by decide)) (by decide)
  · intro o ho hback
    rw [howner] at ho
    cases ho
    exact absurd (hback.within hlinked (by decide)) (by decide)
  · rintro v hv ⟨hnot, hne, -⟩
    rw [hbefore] at hnot
    have hmem := hconcerned v hv
    simp_all
  · -- only the step itself waits when the categories of its owner would be asked for
    intro before u after hsplit hconsults t hut _ hready v hv htv
    rw [hbefore] at hsplit
    rcases before with _ | ⟨a, _ | ⟨b, before⟩⟩
    · simp only [List.nil_append, List.cons.injEq] at hsplit
      obtain ⟨rfl, -⟩ := hsplit
      exact absurd hconsults.1 (by decide +kernel)
    · simp only [List.cons_append, List.nil_append, List.cons.injEq] at hsplit
      obtain ⟨rfl, rfl, -⟩ := hsplit
      have hmem : t ∈ [⟨1⟩, ⟨0⟩] := by
        rcases hut with hut | ⟨o, ho, -⟩
        · exact hut.within hstep (by decide)
        · have hroot : stepPart.owner ⟨1⟩ = none := by decide +kernel
          rw [linkedBut_forest, hroot] at ho
          cases ho
      rcases List.mem_cons.1 hmem with rfl | hmem
      · exact hready ⟨by decide, by decide, by decide +kernel⟩
      · exact hv.1 (htv.within hstruct hmem)
    · simp at hsplit

theorem link_takesRole_stepPart :
    stepPart.Reachable ∧ stepPart.metaclass ⟨2⟩ = .feature ∧
    ¬ stepPart.link.hasWrittenSupertype ⟨2⟩ ∧ stepPart.SuppliesInOrder ⟨2⟩ ∧
    stepPart.TakesRole ⟨2⟩ .subobject ∧
    stepPart.link.specializations.get ⟨2⟩ =
      [{ general := ⟨1⟩, kind := .typing },
        { general := ⟨3⟩, kind := .subsetting, isImplied := true }] := by
  have hreachable : stepPart.Reachable := (Reachable.empty _).performAll _
  have hkind : stepPart.metaclass ⟨2⟩ = .feature := by decide +kernel
  have hfree : ¬ stepPart.link.hasWrittenSupertype ⟨2⟩ := by decide +kernel
  have horder := stepPart_suppliesInOrder
  obtain ⟨own, owners, hrole, -, -, hfinal⟩ := link_takesRole hreachable hkind hfree
  obtain ⟨rfl, rfl⟩ := hfinal horder
  have hchosen : featureRole (stepPart.modifiers ⟨2⟩).isComposite
      (stepPart.link.askOwnerCategories ⟨2⟩).1
      (stepPart.link.categoriesOver (stepPart.writtenSpecializations ⟨2⟩)) = .subobject := by
    decide +kernel
  rw [hchosen] at hrole
  exact ⟨hreachable, hkind, hfree, horder, hrole, hrole.edges.trans (by decide +kernel)⟩

/-- The role by the categories that all that is written down for a feature, and its owner, have after
linking. -/
def finalRole (m : Model) (d : ElementId) : SupertypeRole :=
  featureRole (m.modifiers d).isComposite (m.link.askOwnerCategories d).1
    (m.link.categoriesOver (m.writtenEdges d))

/-- A feature that is not given a supertype in writing takes another role than the final one. -/
structure MissesFinalRole (m : Model) (d : ElementId) : Prop where
  reachable : m.Reachable
  feature : m.metaclass d = .feature
  free : ¬ m.link.hasWrittenSupertype d
  misses : ¬ m.TakesRole d (m.finalRole d)

/-- A feature that is typed by another one. By its role the other one subsets a feature that is typed
by a structure. -/
def lateStructure : Model :=
  performAll
    { library := (SupertypeTable.empty.insert .feature .base "things").insert .feature .object
        "objects" }
    [.addRoot { metaclass := .feature, name := some "f" },
      .addRoot { metaclass := .feature, name := some "g" },
      .addRoot { metaclass := .feature, name := some "things" },
      .addRoot { metaclass := .feature, name := some "objects" },
      .addRoot { metaclass := .struct, name := some "S" },
      .request ⟨0⟩ { target := .element ⟨1⟩, kind := .typing },
      .request ⟨2⟩ { target := .element ⟨4⟩, kind := .typing }]

/-- Two features typed by another one, which subsets a further one. When the later of the two gets its
supertype, what they are typed by is still remembered without what the further one has got. -/
def rememberedType : Model :=
  performAll
    { library := (SupertypeTable.empty.insert .feature .base "S").insert .feature .object "T" }
    [.addRoot { metaclass := .feature }, .addRoot { metaclass := .feature },
      .addRoot { metaclass := .feature }, .addRoot { metaclass := .feature },
      .addRoot { metaclass := .struct, name := some "S" },
      .addRoot { metaclass := .type, name := some "T" },
      .request ⟨0⟩ { target := .element ⟨1⟩, kind := .typing },
      .request ⟨1⟩ { target := .element ⟨2⟩, kind := .subsetting },
      .request ⟨3⟩ { target := .element ⟨1⟩, kind := .typing }]

/-- A feature typed by itself. It gets a structure from the library because it was none before. -/
def selfTypedFeature : Model :=
  performAll
    { library := (SupertypeTable.empty.insert .feature .base "S").insert .feature .object "T" }
    [.addRoot { metaclass := .feature }, .addRoot { metaclass := .struct, name := some "S" },
      .addRoot { metaclass := .type, name := some "T" },
      .request ⟨0⟩ { target := .element ⟨0⟩, kind := .typing }]

/-- A feature with an edge to a structure that is marked as typing but not as a specialization. -/
def unmarkedTyping : Model :=
  performAll
    { library := (SupertypeTable.empty.insert .feature .base "S").insert .feature .object "T" }
    [.addRoot { metaclass := .feature }, .addRoot { metaclass := .type, name := some "S" },
      .addRoot { metaclass := .type, name := some "T" }, .addRoot { metaclass := .struct },
      .request ⟨0⟩ { target := .element ⟨3⟩, kind := .ofCode 0b1000000 }]

/-- What a feature is typed by may get its categories later, may be remembered from before it got them,
and may get them from the feature itself. Categories are not taken over by way of what is no
specialization. -/
theorem link_misses_finalRole :
    lateStructure.MissesFinalRole ⟨0⟩ ∧ rememberedType.MissesFinalRole ⟨3⟩ ∧
    selfTypedFeature.MissesFinalRole ⟨0⟩ ∧ unmarkedTyping.MissesFinalRole ⟨0⟩ := by
  refine ⟨⟨(Reachable.empty _).performAll _, ?_, ?_, fun h => absurd h.edges ?_⟩,
    ⟨(Reachable.empty _).performAll _, ?_, ?_, fun h => absurd h.edges ?_⟩,
    ⟨(Reachable.empty _).performAll _, ?_, ?_, fun h => absurd h.edges ?_⟩,
    ⟨(Reachable.empty _).performAll _, ?_, ?_, fun h => absurd h.edges ?_⟩⟩
  all_goals decide +kernel

end Kerml.Model
