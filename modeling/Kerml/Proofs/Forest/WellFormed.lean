import Kerml.Proofs.Forest.Operations

/-!
# Well-formed forests

Owners and members agree, both run in order of creation, and only types ask for specializations,
of declarations that exist. Every operation that builds a forest keeps this.
-/
namespace Kerml.Forest

/-- Owners and members agree and run in order of creation, and what types ask for is known. -/
structure WellFormed (f : Forest) : Prop where
  owner_lt : ∀ {d o}, f.owner d = some o → o.index < d.index
  mem_members_iff : ∀ {o c}, c ∈ f.members o ↔ f.owner c = some o
  members_sorted : ∀ o, (f.members o).Pairwise (·.index < ·.index)
  mem_roots_iff : ∀ {d}, d ∈ f.roots ↔ f.contains d ∧ f.owner d = none
  roots_sorted : f.roots.Pairwise (·.index < ·.index)
  isType_of_request : ∀ {d r}, r ∈ f.requests d → f.isType d
  contains_target : ∀ {d r t}, r ∈ f.requests d → r.target = .element t → f.contains t

namespace WellFormed

variable {f g : Forest}

theorem contains_owner (h : f.WellFormed) {d o : ElementId} (ho : f.owner d = some o) :
    f.contains o :=
  contains_iff.2 (Nat.lt_trans (h.owner_lt ho) (contains_iff.1 (contains_of_owner ho)))

theorem contains_member (h : f.WellFormed) {o c : ElementId} (hc : c ∈ f.members o) :
    f.contains c :=
  contains_of_owner (h.mem_members_iff.1 hc)

theorem lt_of_mem_members (h : f.WellFormed) {o c : ElementId} (hc : c ∈ f.members o) :
    o.index < c.index :=
  h.owner_lt (h.mem_members_iff.1 hc)

theorem members_nodup (h : f.WellFormed) (o : ElementId) : (f.members o).Nodup :=
  (h.members_sorted o).imp fun hlt he => by simp [he] at hlt

theorem roots_nodup (h : f.WellFormed) : f.roots.Nodup :=
  h.roots_sorted.imp fun hlt he => by simp [he] at hlt

theorem empty : WellFormed {} where
  owner_lt := by simp [owner, element?]
  mem_members_iff := by simp [owner, members, element?]
  members_sorted := by simp [members, element?]
  mem_roots_iff := by simp [contains, size]
  roots_sorted := List.Pairwise.nil
  isType_of_request := by simp [requests, element?]
  contains_target := by simp [requests, element?]

/-- Changing an element without moving it keeps the forest well-formed, if what it asks for is
allowed. -/
theorem modify (h : f.WellFormed) (d : ElementId) (change : Element → Element)
    (howner : ∀ e, (change e).owner = e.owner) (hmembers : ∀ e, (change e).members = e.members)
    (hkind : ∀ e, (change e).declaration.metaclass = e.declaration.metaclass)
    (hrequests : ∀ e, f.element? d = some e → ∀ r ∈ (change e).requests,
      f.isType d ∧ ∀ t, r.target = .element t → f.contains t) :
    (f.modify d change).WellFormed := by
  have ho := fun c => owner_modify f d c change howner
  have hm := fun c => members_modify f d c change hmembers
  have hr : ∀ {c r}, r ∈ (f.modify d change).requests c →
      f.isType c ∧ ∀ t, r.target = .element t → f.contains t := by
    intro c r hr
    simp only [requests, element?_modify] at hr
    split at hr
    · rename_i hdc
      subst hdc
      cases he : f.element? d with
      | none => simp [he] at hr
      | some e => exact hrequests e he r (by simpa [he] using hr)
    · exact ⟨h.isType_of_request hr, fun t ht => h.contains_target hr ht⟩
  constructor
  · intro c o hc
    exact h.owner_lt (ho c ▸ hc)
  · intro o c
    rw [ho, hm]
    exact h.mem_members_iff
  · intro o
    rw [hm]
    exact h.members_sorted o
  · intro c
    rw [contains_modify, ho]
    exact h.mem_roots_iff
  · exact h.roots_sorted
  · intro c r hc
    rw [isType_modify f d c change hkind]
    exact (hr hc).1
  · intro c r t hc ht
    rw [contains_modify]
    exact (hr hc).2 t ht

theorem addRoot (h : f.WellFormed) (declaration : Declaration) :
    (f.addRoot declaration).WellFormed := by
  have ho := owner_addRoot f declaration
  have hm := members_addRoot f declaration
  have hr := requests_addRoot f declaration
  constructor
  · intro d o hd
    exact h.owner_lt (ho d ▸ hd)
  · intro o c
    rw [hm, ho]
    exact h.mem_members_iff
  · intro o
    rw [hm]
    exact h.members_sorted o
  · intro d
    change d ∈ f.roots ++ [f.nextId] ↔ _
    rw [List.mem_append, List.mem_singleton, h.mem_roots_iff, contains_addRoot, ho]
    constructor
    · rintro (⟨hc, hn⟩ | rfl)
      · exact ⟨Or.inl hc, hn⟩
      · exact ⟨Or.inr rfl, by simp [owner, element?_eq_none contains_nextId]⟩
    · rintro ⟨hc | rfl, hn⟩
      · exact Or.inl ⟨hc, hn⟩
      · exact Or.inr rfl
  · refine List.pairwise_append.2 ⟨h.roots_sorted, List.pairwise_singleton _ _, ?_⟩
    intro d hd c hc
    rw [List.mem_singleton.1 hc]
    exact contains_iff.1 (h.mem_roots_iff.1 hd).1
  · intro d r hd
    exact isType_addRoot (h.isType_of_request (hr d ▸ hd))
  · intro d r t hd ht
    exact contains_addRoot.2 (Or.inl (h.contains_target (hr d ▸ hd) ht))

private theorem mem_members_add_iff (h : f.WellFormed) {o p c : ElementId} {declaration : Declaration}
    (hadd : f.add o declaration = .ok g) : c ∈ g.members p ↔ g.owner c = some p := by
  rw [members_add hadd, owner_add hadd]
  by_cases hc : c = f.nextId
  · have hno : f.nextId ∉ f.members p := fun hmem => contains_nextId (h.contains_member hmem)
    by_cases hp : p = o
    · simp [hc, hp]
    · simp [hc, hp, hno, Ne.symm hp]
  · by_cases hp : p = o
    · simp [hc, hp, h.mem_members_iff]
    · simp [hc, hp, h.mem_members_iff]

theorem add (h : f.WellFormed) {o : ElementId} {declaration : Declaration}
    (hadd : f.add o declaration = .ok g) : g.WellFormed := by
  have hknown : f.contains o := (eq_of_add hadd).1
  have ho := owner_add hadd
  have hr := requests_add hadd
  constructor
  · intro d p hd
    rw [ho] at hd
    split at hd
    · rename_i hdn
      cases hd
      rw [hdn]
      exact contains_iff.1 hknown
    · exact h.owner_lt hd
  · exact h.mem_members_add_iff hadd
  · intro p
    rw [members_add hadd]
    split
    · refine List.pairwise_append.2 ⟨h.members_sorted p, List.pairwise_singleton _ _, ?_⟩
      intro c hc d hd
      rw [List.mem_singleton.1 hd]
      exact contains_iff.1 (h.contains_member hc)
    · exact h.members_sorted p
  · intro d
    rw [roots_add hadd, h.mem_roots_iff, contains_add hadd, ho]
    constructor
    · rintro ⟨hd, hn⟩
      exact ⟨Or.inl hd, by rw [if_neg (ne_nextId hd), hn]⟩
    · rintro ⟨hd, hn⟩
      split at hn
      · cases hn
      · rename_i hdn
        exact ⟨hd.resolve_right hdn, hn⟩
  · rw [roots_add hadd]
    exact h.roots_sorted
  · intro d r hd
    exact isType_add hadd (h.isType_of_request (hr d ▸ hd))
  · intro d r t hd ht
    exact (contains_add hadd).2 (Or.inl (h.contains_target (hr d ▸ hd) ht))

theorem request (h : f.WellFormed) {d : ElementId} {r : Request}
    (hreq : f.request d r = .ok g) : g.WellFormed := by
  obtain ⟨htype, htarget, rfl⟩ := eq_of_request hreq
  refine h.modify d _ (fun _ => rfl) (fun _ => rfl) (fun _ => rfl) ?_
  intro e he q hq
  rcases List.mem_append.1 hq with hq | hq
  · rw [← requests_of_element? he] at hq
    exact ⟨htype, fun t => h.contains_target hq⟩
  · rw [List.mem_singleton.1 hq]
    exact ⟨htype, htarget⟩

theorem clearRequests (h : f.WellFormed) {d : ElementId} (hclear : f.clearRequests d = .ok g) :
    g.WellFormed := by
  rw [eq_of_clearRequests hclear]
  exact h.modify d _ (fun _ => rfl) (fun _ => rfl) (fun _ => rfl) (by simp)

theorem kept (h : f.WellFormed) {d : ElementId} {e : Element} (he : f.element? d = some e) :
    ∀ r ∈ e.requests, f.isType d ∧ ∀ t, r.target = .element t → f.contains t := by
  intro r hr
  rw [← requests_of_element? he] at hr
  exact ⟨h.isType_of_request hr, fun t => h.contains_target hr⟩

theorem addImport (h : f.WellFormed) {d : ElementId} {i : Import}
    (himport : f.addImport d i = .ok g) : g.WellFormed := by
  rw [eq_of_addImport himport]
  exact h.modify d _ (fun _ => rfl) (fun _ => rfl) (fun _ => rfl) fun _ he _ hr => h.kept he _ hr

theorem setName (h : f.WellFormed) {d : ElementId} {name : Option String}
    (hname : f.setName d name = .ok g) : g.WellFormed := by
  rw [eq_of_setName hname]
  exact h.modify d _ (fun _ => rfl) (fun _ => rfl) (fun _ => rfl) fun _ he _ hr => h.kept he _ hr

end WellFormed

end Kerml.Forest
