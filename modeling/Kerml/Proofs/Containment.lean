import Kerml.Proofs.Forest.OwnerChain
import Kerml.Proofs.Link.Content

/-!
# Containment in the models that can come about

Owners, members, roots, ends and the preorder tell of one forest in order of creation, whatever
has been done to the model and whatever was refused.
-/
namespace Kerml

namespace Forest

open Relation

/-- Listing declarations with the help of a stack. The uppermost one is taken off and listed, and
its members are put on in its place. -/
inductive Unstacks (f : Forest) : List ElementId → List ElementId → Prop
  | done : Unstacks f [] []
  | take {d stack order} (h : Unstacks f (f.members d ++ stack) order) :
      Unstacks f (d :: stack) (d :: order)

variable {f : Forest} {d o : ElementId} {stack order : List ElementId}

theorem Unstacks.unique {other : List ElementId} (h : f.Unstacks stack order)
    (h' : f.Unstacks stack other) : order = other := by
  induction h generalizing other with
  | done =>
    cases h'
    rfl
  | take _ ih =>
    cases h' with
    | take h' => rw [ih h']

namespace WellFormed

/-- What is on top of a stack is listed with everything below it before the rest. -/
theorem unstacks_subtree (h : f.WellFormed) (d : ElementId) (hrest : f.Unstacks stack order) :
    f.Unstacks (d :: stack) (f.subtree d ++ order) := by
  induction d using h.members_induction generalizing stack order with
  | step d ih =>
    have hmembers : ∀ cs, (∀ c ∈ cs, c ∈ f.members d) →
        f.Unstacks (cs ++ stack) (cs.flatMap f.subtree ++ order) := by
      intro cs hcs
      induction cs with
      | nil => exact hrest
      | cons c cs ihcs =>
        rw [List.flatMap_cons, List.append_assoc]
        exact ih c (hcs c List.mem_cons_self) (ihcs fun e he => hcs e (List.mem_cons_of_mem c he))
    rw [h.subtree_eq]
    exact .take (hmembers _ fun _ hc => hc)

/-- With the roots on the stack, the first one uppermost, the preorder is listed. -/
theorem unstacks_roots_iff (h : f.WellFormed) : f.Unstacks f.roots order ↔ order = f.preorder := by
  have hpreorder : ∀ rs, f.Unstacks rs (rs.flatMap f.subtree) := by
    intro rs
    induction rs with
    | nil => exact .done
    | cons r rs ih => exact h.unstacks_subtree r ih
  constructor
  · intro horder
    exact horder.unique (hpreorder f.roots)
  · rintro rfl
    exact hpreorder f.roots

private theorem subtree_infix_of_within (h : f.WellFormed) (hw : f.Within d o) :
    f.subtree d <:+: f.subtree o := by
  induction hw with
  | refl => exact List.infix_refl _
  | @tail c o _ hc ih =>
    have hmem : f.subtree c ∈ (f.members o).map f.subtree :=
      List.mem_map_of_mem (h.mem_members_iff.2 hc)
    rw [h.subtree_eq o, List.flatMap_def]
    exact (ih.trans (List.infix_of_mem_flatten hmem)).trans (List.infix_cons (List.infix_refl _))

theorem subtree_infix_preorder (h : f.WellFormed) (hd : f.contains d) :
    f.subtree d <:+: f.preorder := by
  obtain ⟨r, hr, hw⟩ := h.exists_root hd
  have hmem : f.subtree r ∈ f.roots.map f.subtree := List.mem_map_of_mem hr
  rw [preorder, List.flatMap_def]
  exact (h.subtree_infix_of_within hw).trans (List.infix_of_mem_flatten hmem)

/-- In the preorder an owner comes before what it owns. -/
theorem owner_sublist_preorder (h : f.WellFormed) (ho : f.owner d = some o) :
    [o, d].Sublist f.preorder := by
  have hbelow : d ∈ (f.members o).flatMap f.subtree :=
    List.mem_flatMap.2 ⟨d, h.mem_members_iff.2 ho, h.mem_subtree_iff.2 .refl⟩
  have hsubtree : [o, d].Sublist (f.subtree o) := by
    rw [h.subtree_eq]
    exact (List.singleton_sublist.2 hbelow).cons_cons o
  exact hsubtree.trans (h.subtree_infix_preorder (h.contains_owner ho)).sublist

end WellFormed

/-- A forest in order of creation, as its owners, members, roots, ends and its preorder tell of it
alike. -/
structure IsCreationOrdered (f : Forest) : Prop where
  owner_lt : ∀ {d o}, f.owner d = some o → o.index < d.index
  mem_members_iff : ∀ {o c}, c ∈ f.members o ↔ f.owner c = some o
  members_sorted : ∀ o, (f.members o).Pairwise (·.index < ·.index)
  mem_roots_iff : ∀ {d}, d ∈ f.roots ↔ f.contains d ∧ f.owner d = none
  roots_sorted : f.roots.Pairwise (·.index < ·.index)
  /-- The ends of a relationship are its members that are ends. Nothing else has ends. -/
  ends_eq : ∀ d, f.ends d =
    if (f.metaclass d).isRelationship then (f.members d).filter fun c => (f.modifiers c).isEnd
    else []
  preorder_nodup : f.preorder.Nodup
  mem_preorder_iff : ∀ {d}, d ∈ f.preorder ↔ f.contains d
  owner_before : ∀ {d o}, f.owner d = some o → [o, d].Sublist f.preorder
  /-- What is within a declaration stands together, the declaration first and then what is within
  each of its members in turn. -/
  subtree_eq : ∀ d, f.subtree d = d :: (f.members d).flatMap f.subtree
  mem_subtree_iff : ∀ {d e}, e ∈ f.subtree d ↔ f.Within e d
  subtree_infix : ∀ {d}, f.contains d → f.subtree d <:+: f.preorder
  unstacks_roots_iff : ∀ {order}, f.Unstacks f.roots order ↔ order = f.preorder
  /-- The chain of owners is followed to its end. -/
  ownerChain_eq : ∀ d, f.ownerChain d = d :: ((f.owner d).map f.ownerChain).getD []
  exists_encloses? : ∀ {d}, f.contains d → ∀ o, ∃ b, f.encloses? o d = some b ∧ (b ↔ f.Within d o)

end Forest

namespace Model

variable {m : Model}

/-- Commands that are carried out and commands that are refused leave a forest in order of
creation. -/
theorem isCreationOrdered_performAll (h : m.Reachable) (cs : List Command) :
    (m.performAll cs).IsCreationOrdered := by
  have hafter : (m.performAll cs).Reachable := h.performAll cs
  have hforest : (m.performAll cs).WellFormed := hafter.coherent.forest
  exact {
    owner_lt := hforest.owner_lt
    mem_members_iff := hforest.mem_members_iff
    members_sorted := hforest.members_sorted
    mem_roots_iff := hforest.mem_roots_iff
    roots_sorted := hforest.roots_sorted
    ends_eq := hafter.endsListed
    preorder_nodup := hforest.preorder_nodup
    mem_preorder_iff := hforest.mem_preorder_iff
    owner_before := hforest.owner_sublist_preorder
    subtree_eq := hforest.subtree_eq
    mem_subtree_iff := hforest.mem_subtree_iff
    subtree_infix := hforest.subtree_infix_preorder
    unstacks_roots_iff := hforest.unstacks_roots_iff
    ownerChain_eq := hforest.ownerChain_eq
    exists_encloses? := hforest.exists_encloses? }

/-- An association with two ends, one of which owns a feature, and a package. A member without owner
and an end that is no feature are refused. -/
def associationCommands : List Command :=
  [.addRoot { metaclass := .association, name := some "A" },
    .addRoot { metaclass := .package, name := some "P" },
    .add ⟨0⟩ { metaclass := .feature, name := some "source", modifiers := { isEnd := true } },
    .add ⟨0⟩ { metaclass := .feature, name := some "other" },
    .add ⟨9⟩ { metaclass := .feature },
    .add ⟨2⟩ { metaclass := .feature, modifiers := { isEnd := true } },
    .add ⟨0⟩ { metaclass := .klass, modifiers := { isEnd := true } },
    .add ⟨0⟩ { metaclass := .feature, name := some "target", modifiers := { isEnd := true } }]

theorem isCreationOrdered_performAll_association :
    Reachable { library := .empty } ∧
    (performAll { library := .empty } associationCommands).IsCreationOrdered ∧
    (performAll { library := .empty } associationCommands).preorder =
      [⟨0⟩, ⟨2⟩, ⟨4⟩, ⟨3⟩, ⟨5⟩, ⟨1⟩] ∧
    (performAll { library := .empty } associationCommands).ends ⟨0⟩ = [⟨2⟩, ⟨5⟩] := by
  have hreachable : Reachable { library := .empty } := .empty .empty
  exact ⟨hreachable, isCreationOrdered_performAll hreachable associationCommands,
    by decide +kernel, by decide +kernel⟩

end Model
end Kerml
