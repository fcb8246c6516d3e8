import Kerml.Proofs.Reachable

/-!
# At most one specialization of each general type

Adding a second one changes nothing, so that this holds in all models that can come about.
-/
namespace Kerml.Model

variable {m n : Model} {d e : ElementId}

def SpecializesOnce (m : Model) : Prop :=
  ∀ d, ((m.specializations.get d).map (·.general)).Nodup

namespace SpecializesOnce

theorem empty (library : SupertypeTable) : SpecializesOnce { library } := fun _ => List.nodup_nil

theorem of_specializations (h : m.SpecializesOnce) (hn : n.specializations = m.specializations) :
    n.SpecializesOnce := by
  intro d
  rw [hn]
  exact h d

/-- Recording specializations for a declaration leaves one for each general type. -/
theorem record (h : m.SpecializesOnce) {es : List Specialization}
    (hget : ∀ e, n.specializations.get e =
      if d = e then es.foldl Specialization.record (m.specializations.get d)
      else m.specializations.get e) : n.SpecializesOnce := by
  intro e
  rw [hget]
  split
  · rw [Specialization.foldl_record _ _ (h d)]
    exact nodup_map_distinctBy _
  · exact h e

theorem applyRequests (h : m.SpecializesOnce) (d : ElementId) :
    (m.applyRequests d).SpecializesOnce :=
  h.record (applyRequests_get m d)

theorem takeNames (h : m.SpecializesOnce) (ds : List ElementId) :
    (m.takeNames ds).SpecializesOnce :=
  h.of_specializations (takeNames_sameEdges m ds).specializations

theorem addSupertypes (h : m.SpecializesOnce) (d : ElementId) :
    (m.addSupertypes d).SpecializesOnce := by
  by_cases hd : m.isType d
  · exact h.record fun e => addSupertypes_get hd
  · rwa [addSupertypes_of_not_isType hd]

theorem checkImports (h : m.SpecializesOnce) (d : ElementId) :
    (m.checkImports d).SpecializesOnce :=
  h.of_specializations rfl

theorem foldl {step : Model → ElementId → Model} (hstep : ∀ {m}, SpecializesOnce m → ∀ d,
    (step m d).SpecializesOnce) (h : m.SpecializesOnce) (ds : List ElementId) :
    (ds.foldl step m).SpecializesOnce :=
  List.foldlRecOn ds step h fun _ hm d _ => hstep hm d

theorem link (m : Model) : m.link.SpecializesOnce := by
  let order := m.preorder
  have unlinked : m.unlinked.SpecializesOnce := fun _ => List.nodup_nil
  have requested := unlinked.foldl (fun h d => h.applyRequests d) order
  have implied := (requested.takeNames order).foldl (fun h d => h.addSupertypes d) order
  have checked := implied.foldl (fun h d => h.checkImports d) order
  exact checked.of_specializations rfl

theorem reset (h : m.SpecializesOnce) (hn : m.reset d = .ok n) : n.SpecializesOnce := by
  simp only [Model.reset] at hn
  split at hn
  · cases hn
  · cases hn
    intro e
    change ((Column.get (m.specializations.put d []) e).map (·.general)).Nodup
    rw [Column.get_put]
    split
    · exact List.nodup_nil
    · exact h e

theorem relink (h : m.SpecializesOnce) (hn : m.relink d = .ok n) : n.SpecializesOnce := by
  simp only [Model.relink] at hn
  split at hn
  · cases hn
  · cases hn
    have checked := (((h.applyRequests d).takeNames [d]).addSupertypes d).checkImports d
    exact checked.of_specializations rfl

theorem perform (h : m.SpecializesOnce) {c : Command} (hc : m.perform c = .ok n) :
    n.SpecializesOnce := by
  cases c with
  | addRoot declaration =>
    cases hc
    exact h.of_specializations rfl
  | add owner declaration =>
    obtain ⟨p, hp, rfl⟩ := exists_of_map_eq_ok hc
    obtain ⟨f, -, rfl⟩ := exists_of_map_eq_ok hp
    exact h.of_specializations rfl
  | request d r =>
    obtain ⟨f, -, rfl⟩ := exists_of_map_eq_ok hc
    exact h.of_specializations rfl
  | clearRequests d =>
    obtain ⟨f, -, rfl⟩ := exists_of_map_eq_ok hc
    exact h.of_specializations rfl
  | addImport d i =>
    obtain ⟨f, -, rfl⟩ := exists_of_map_eq_ok hc
    exact h.of_specializations rfl
  | setName d name =>
    obtain ⟨f, -, rfl⟩ := exists_of_map_eq_ok hc
    exact h.of_specializations rfl
  | link =>
    cases hc
    exact .link m
  | reset d => exact h.reset hc
  | relink d => exact h.relink hc

end SpecializesOnce

/-- In every model that can come about, a type holds one specialization of each general type. -/
theorem Reachable.specializesOnce (h : m.Reachable) : m.SpecializesOnce := by
  induction h with
  | empty library => exact .empty library
  | perform _ c hc ih => exact ih.perform hc
  | ask _ q ih => exact ih.of_specializations (ask_sameEdges _ q).specializations

end Kerml.Model
