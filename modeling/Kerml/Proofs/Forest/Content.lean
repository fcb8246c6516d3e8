import Kerml.Proofs.Forest.WellFormed
import Mathlib.Data.List.Sort

/-!
# What determines a forest

The ends of a relationship are those of its members that are ends, and the roots are the
declarations without owner, so forests that say the same of every declaration are the same.
-/
namespace Kerml.Forest

variable {f g : Forest} {d o : ElementId}

/-- The ends of a relationship are its members that are ends, in order. Nothing else has ends. -/
def EndsListed (f : Forest) : Prop :=
  ∀ d, f.ends d =
    if (f.metaclass d).isRelationship then (f.members d).filter fun c => (f.modifiers c).isEnd
    else []

theorem declaration?_push_of_ne (e : Element) (h : d ≠ f.nextId) :
    (f.push e).declaration? d = f.declaration? d := by
  simp only [declaration?, element?_push, if_neg h]

private theorem metaclass_push_of_ne (e : Element) (h : d ≠ f.nextId) :
    (f.push e).metaclass d = f.metaclass d := by
  simp only [metaclass, declaration?_push_of_ne e h]

private theorem modifiers_push_of_ne (e : Element) (h : d ≠ f.nextId) :
    (f.push e).modifiers d = f.modifiers d := by
  simp only [modifiers, declaration?_push_of_ne e h]

theorem metaclass_modify (f : Forest) (d c : ElementId) (change : Element → Element)
    (hkind : ∀ e, (change e).declaration.metaclass = e.declaration.metaclass) :
    (f.modify d change).metaclass c = f.metaclass c := by
  simp only [metaclass, declaration?, element?_modify]
  split
  · cases f.element? c <;> simp [hkind]
  · rfl

private theorem modifiers_modify (f : Forest) (d c : ElementId) (change : Element → Element)
    (hmodifiers : ∀ e, (change e).declaration.modifiers = e.declaration.modifiers) :
    (f.modify d change).modifiers c = f.modifiers c := by
  simp only [modifiers, declaration?, element?_modify]
  split
  · cases f.element? c <;> simp [hmodifiers]
  · rfl

private theorem ends_modify (f : Forest) (d c : ElementId) (change : Element → Element)
    (hends : ∀ e, (change e).ends = e.ends) : (f.modify d change).ends c = f.ends c := by
  simp only [ends, element?_modify]
  split
  · cases f.element? c <;> simp [hends]
  · rfl

namespace EndsListed

theorem empty : EndsListed {} := by
  intro d
  simp [ends, members, element?]

theorem modify (h : f.EndsListed) (d : ElementId) (change : Element → Element)
    (hdeclaration : ∀ e, (change e).declaration.metaclass = e.declaration.metaclass ∧
      (change e).declaration.modifiers = e.declaration.modifiers)
    (hmembers : ∀ e, (change e).members = e.members) (hends : ∀ e, (change e).ends = e.ends) :
    (f.modify d change).EndsListed := by
  intro c
  rw [ends_modify f d c change hends, members_modify f d c change hmembers,
    metaclass_modify f d c change fun e => (hdeclaration e).1, h c]
  simp only [modifiers_modify f d _ change fun e => (hdeclaration e).2]

/-- A new element without members and ends has nothing to list. -/
theorem push (h : f.EndsListed) (hf : ∀ o c, c ∈ f.members o → f.contains c) {e : Element}
    (hmembers : e.members = []) (hends : e.ends = []) : (f.push e).EndsListed := by
  intro d
  have hm := members_push (f := f) hmembers d
  by_cases hd : d = f.nextId
  · subst hd
    have hnone : f.members f.nextId = [] := by simp [members, element?_eq_none contains_nextId]
    simp [hm, hnone, ends, element?_push, hends]
  · have hread : (f.push e).ends d = f.ends d := by simp only [ends, element?_push, if_neg hd]
    rw [hread, h d, hm, metaclass_push_of_ne e hd]
    split
    · refine List.filter_congr fun c hc => ?_
      rw [modifiers_push_of_ne e (ne_nextId (hf d c hc))]
    · rfl

end EndsListed

theorem element?_add {declaration : Declaration} (h : f.add o declaration = .ok g)
    (d : ElementId) : g.element? d =
      if d = f.nextId then some { declaration, owner := some o }
      else if o = d then
        (f.element? d).map (·.addMember f.nextId declaration.modifiers.isEnd)
      else f.element? d := by
  obtain ⟨-, rfl⟩ := eq_of_add h
  rw [element?_push, nextId_modify, element?_modify]

theorem declaration?_add {declaration : Declaration} (h : f.add o declaration = .ok g)
    (hd : d ≠ f.nextId) : g.declaration? d = f.declaration? d := by
  simp only [declaration?, element?_add h, if_neg hd]
  split
  · cases f.element? d <;> rfl
  · rfl

theorem EndsListed.add (hf : f.WellFormed) (h : f.EndsListed) {declaration : Declaration}
    (hadd : f.add o declaration = .ok g) : g.EndsListed := by
  have hknown : f.contains o := (eq_of_add hadd).1
  have hread : ∀ {c}, c ≠ f.nextId → g.modifiers c = f.modifiers c := fun hc => by
    simp only [modifiers, declaration?_add hadd hc]
  have hkept : ∀ d, (f.members d).filter (fun c => (g.modifiers c).isEnd) =
      (f.members d).filter fun c => (f.modifiers c).isEnd := by
    intro d
    refine List.filter_congr fun c hc => ?_
    rw [hread (ne_nextId (hf.contains_member hc))]
  have hnew : (g.modifiers f.nextId).isEnd = declaration.modifiers.isEnd := by
    simp [modifiers, declaration?, element?_add hadd]
  intro d
  by_cases hd : d = f.nextId
  · subst hd
    have ho : f.nextId ≠ o := (ne_nextId hknown).symm
    have hnone : f.members f.nextId = [] := by simp [members, element?_eq_none contains_nextId]
    simp [members_add hadd, ho, hnone, ends, element?_add hadd]
  · have hkind : g.metaclass d = f.metaclass d := by
      simp only [metaclass, declaration?_add hadd hd]
    rw [hkind, members_add hadd]
    by_cases hdo : d = o
    · subst hdo
      obtain ⟨e, he⟩ := exists_element?_of_contains hknown
      have hlisted := h d
      have hrelates : (f.metaclass d).isRelationship = e.declaration.metaclass.isRelationship := by
        simp [metaclass, declaration?, he]
      simp only [ends, he, Option.map_some, Option.getD_some] at hlisted
      simp only [ends, element?_add hadd, if_neg hd, if_pos, he, Option.map_some,
        Option.getD_some, Element.addMember, hlisted, List.filter_append, hkept, hrelates]
      cases e.declaration.metaclass.isRelationship <;>
        cases hend : declaration.modifiers.isEnd <;> simp [hnew, hend]
    · have hends : g.ends d = f.ends d := by
        simp only [ends, element?_add hadd, if_neg hd, if_neg (Ne.symm hdo)]
      rw [hends, if_neg hdo, hkept, h d]

private theorem roots_eq_of_owner (hf : f.WellFormed) (hg : g.WellFormed)
    (hcontains : ∀ d, g.contains d ↔ f.contains d) (howner : g.owner = f.owner) :
    g.roots = f.roots := by
  have hantisymm : ∀ a b : ElementId, a ∈ g.roots → b ∈ f.roots → a.index < b.index →
      b.index < a.index → a = b := by
    intro a b _ _ hab hba
    omega
  have hperm : g.roots.Perm f.roots := by
    refine (List.perm_ext_iff_of_nodup hg.roots_nodup hf.roots_nodup).2 fun d => ?_
    rw [hg.mem_roots_iff, hf.mem_roots_iff, hcontains, howner]
  exact List.Perm.eq_of_pairwise hantisymm hg.roots_sorted hf.roots_sorted hperm

/-- Forests that say the same of every declaration are the same. -/
theorem eq_of_reads (hf : f.WellFormed) (hg : g.WellFormed) (hfe : f.EndsListed)
    (hge : g.EndsListed) (hdeclaration : g.declaration? = f.declaration?)
    (howner : g.owner = f.owner) (hmembers : g.members = f.members)
    (himports : g.imports = f.imports) (hrequests : g.requests = f.requests) : g = f := by
  have hcontains : ∀ d, g.contains d ↔ f.contains d := by
    have hread : ∀ {k : Forest} {d}, k.contains d ↔ (k.declaration? d).isSome := by
      intro k d
      simp [contains_iff, declaration?, element?, size]
    intro d
    rw [hread, hread, hdeclaration]
  have hkind : g.metaclass = f.metaclass := funext fun d => by
    simp only [metaclass, hdeclaration]
  have hmodifiers : g.modifiers = f.modifiers := funext fun d => by
    simp only [modifiers, hdeclaration]
  have hends : g.ends = f.ends := funext fun d => by
    rw [hge d, hfe d, hkind, hmembers, hmodifiers]
  have helement : ∀ d, g.element? d = f.element? d := by
    intro d
    by_cases hd : f.contains d
    · obtain ⟨e, he⟩ := exists_element?_of_contains hd
      obtain ⟨e', he'⟩ := exists_element?_of_contains ((hcontains d).2 hd)
      have h1 := congrFun hdeclaration d
      have h2 := congrFun howner d
      have h3 := congrFun hmembers d
      have h4 := congrFun hends d
      have h5 := congrFun himports d
      have h6 := congrFun hrequests d
      simp only [declaration?, owner, members, ends, imports, requests, he, he', Option.map_some,
        Option.bind_some, Option.getD_some, Option.some.injEq] at h1 h2 h3 h4 h5 h6
      rw [he, he']
      cases e
      cases e'
      simp_all
    · rw [element?_eq_none hd, element?_eq_none (mt (hcontains d).1 hd)]
  have helements : g.elements = f.elements :=
    Array.ext_getElem? fun i => helement ⟨i⟩
  have hroots := roots_eq_of_owner hf hg hcontains howner
  cases f
  cases g
  simp_all

end Kerml.Forest
