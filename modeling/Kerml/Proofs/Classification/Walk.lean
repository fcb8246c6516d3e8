import Kerml.Classification
import Kerml.Proofs.Forest.WellFormed
import Mathlib.Data.List.Nodup
import Mathlib.Logic.Relation

/-!
# The walk that derives categories

It gathers, for each type that it enters, what the types gather that can be reached without
passing through a type whose categories are remembered. Open types lead to the type being visited,
so a cycle that is closed has the same categories throughout.
-/
namespace Kerml

open Relation

namespace Model

/-- Visiting the one declaration goes on to the other: it is a type whose categories are not
remembered, and specializes the other. -/
def Asks (m : Model) (d t : ElementId) : Prop :=
  m.isType d ∧ m.memos.get d = .unknown ∧ t ∈ m.generalTypes d

def shown (m : Model) (d : ElementId) : Categories :=
  if m.isType d then
    match m.memos.get d with
    | .done c => c
    | _ => (m.metaclass d).categories
  else (m.metaclass d).categories

/-- A category is shown by a declaration or by one that it goes on to, directly or not. -/
def Derives (m : Model) (d : ElementId) (c : Category) : Prop :=
  ∃ e, ReflTransGen m.Asks d e ∧ (m.shown e).has c

/-- Visiting the one declaration enters the other: a type whose categories are not remembered, to
which the first one goes on. -/
def Enters (m : Model) (d t : ElementId) : Prop :=
  m.isType t ∧ m.memos.get t = .unknown ∧ ReflTransGen m.Asks d t

variable {m : Model} {d t : ElementId} {c : Category}

theorem Derives.head (h : ReflTransGen m.Asks d t) (ht : m.Derives t c) : m.Derives d c := by
  obtain ⟨e, hte, he⟩ := ht
  exact ⟨e, h.trans hte, he⟩

theorem Derives.shown (h : (m.shown d).has c) : m.Derives d c :=
  ⟨d, .refl, h⟩

/-- A declaration that goes on to no other one derives what it shows. -/
theorem derives_iff_shown (h : ∀ t, ¬ m.Asks d t) : m.Derives d c ↔ (m.shown d).has c := by
  constructor
  · rintro ⟨e, hde, he⟩
    rcases ReflTransGen.cases_head hde with rfl | ⟨t, ht, -⟩
    · exact he
    · exact absurd ht (h t)
  · exact Derives.shown

end Model

namespace Walk

variable {w w' : Walk} {d x : ElementId} {new : List ElementId}

theorem height_lt (hx : x ∈ w.path) : w.height x < w.path.length := by
  have := List.length_pos_of_mem hx
  simp only [height]
  omega

theorem height_eq_of_append (hp : w'.path = new ++ w.path) (hn : w'.path.Nodup)
    (hx : x ∈ w.path) : w'.height x = w.height x := by
  have hnew : x ∉ new := fun h => (List.disjoint_of_nodup_append (hp ▸ hn)) h hx
  simp only [height, hp, List.length_append, List.idxOf_append_of_notMem hnew]
  omega

/-- What was entered last is the highest. -/
theorem le_height_of_mem_new (hp : w'.path = new ++ w.path) (hx : x ∈ new) :
    w.path.length ≤ w'.height x := by
  have hlt := List.idxOf_lt_length_of_mem hx
  simp only [height, hp, List.length_append, List.idxOf_append_of_mem hx]
  omega

theorem height_head (hp : w.path = d :: w'.path) : w.height d = w'.path.length := by
  simp [height, hp]

end Walk

structure Visit.Below (v u : Visit) : Prop where
  gathered : ∀ c, v.gathered.has c → u.gathered.has c
  reached : ∀ r, v.reached = some r → ∃ s ≤ r, u.reached = some s

namespace Visit

variable {v u : Visit}

theorem below_join_left (v u : Visit) : v.Below (v.join u) where
  gathered c h := by simp [join, h]
  reached r h := by
    cases hu : u.reached with
    | none => exact ⟨r, Nat.le_refl r, by simp [join, h, hu]⟩
    | some s => exact ⟨min r s, Nat.min_le_left r s, by simp [join, h, hu]⟩

theorem below_join_right (v u : Visit) : u.Below (v.join u) where
  gathered c h := by simp [join, h]
  reached r h := by
    cases hv : v.reached with
    | none => exact ⟨r, Nat.le_refl r, by simp [join, h, hv]⟩
    | some s => exact ⟨min s r, Nat.min_le_right s r, by simp [join, h, hv]⟩

theorem reached_join {r : Nat} (h : (v.join u).reached = some r) :
    v.reached = some r ∨ u.reached = some r := by
  cases hv : v.reached with
  | none => exact Or.inr (by simpa [join, hv] using h)
  | some a =>
    cases hu : u.reached with
    | none => exact Or.inl (by simpa [join, hv, hu] using h)
    | some b =>
      have hmin : min a b = r := by simpa [join, hv, hu] using h
      rcases Nat.le_total a b with hab | hab
      · exact Or.inl (by rw [← hmin, Nat.min_eq_left hab])
      · exact Or.inr (by rw [← hmin, Nat.min_eq_right hab])

end Visit

namespace Walk

variable {m : Model} {w w' w'' : Walk} {v u : Visit} {d x t : ElementId} {inside : List ElementId}

def Keeps (w w' : Walk) : Prop :=
  ∀ x, w.memos.get x ≠ .unknown → w'.memos.get x ≠ .unknown

/-- A declaration does not have to be entered any more. -/
def Knows (m : Model) (w : Walk) (t : ElementId) : Prop :=
  m.isType t → w.memos.get t ≠ .unknown

theorem Keeps.refl (w : Walk) : w.Keeps w := fun _ => id

theorem Keeps.trans (h : w.Keeps w') (h' : w'.Keeps w'') : w.Keeps w'' :=
  fun x hx => h' x (h x hx)

theorem Keeps.enter (w : Walk) (d : ElementId) : w.Keeps (w.enter d) := by
  intro x hx
  rw [Walk.enter, Column.get_put]
  split
  · exact CategoryMemo.noConfusion
  · exact hx

theorem Knows.mono (h : w.Knows m t) (hw : w.Keeps w') : w'.Knows m t :=
  fun ht => hw t (h ht)

/-- A walk through a model: its path holds the open types, and what it remembers besides is right. It
has entered all that is specialized by the types that it has closed. -/
structure Sound (m : Model) (w : Walk) : Prop where
  path_nodup : w.path.Nodup
  mem_path_iff : ∀ {x}, x ∈ w.path ↔ w.memos.get x = .inProgress
  unknown_of_mem_path : ∀ {x}, x ∈ w.path → m.isType x ∧ m.memos.get x = .unknown
  unknown_before : ∀ {x}, w.memos.get x = .unknown → m.memos.get x = .unknown
  done : ∀ {x b}, m.isType x → w.memos.get x = .done b → ∀ c, b.has c ↔ m.Derives x c
  knows : ∀ {x b}, m.memos.get x = .unknown → w.memos.get x = .done b →
    ∀ t ∈ m.generalTypes x, w.Knows m t

/-- What a visit found takes account of a declaration: it is open and not below what was reached, or
all that it derives was gathered. -/
def Covers (m : Model) (w : Walk) (v : Visit) (x : ElementId) : Prop :=
  (x ∈ w.path ∧ ∃ r ≤ w.height x, v.reached = some r) ∨
    ∀ c, m.Derives x c → v.gathered.has c

def Finished (m : Model) (w : Walk) (v : Visit) (x : ElementId) : Prop :=
  (∀ c, (m.shown x).has c → v.gathered.has c) ∧
    ∀ t ∈ m.generalTypes x, w.Covers m v t ∧ w.Knows m t

theorem Covers.mono (h : w.Covers m v x) {new : List ElementId} (hp : w'.path = new ++ w.path)
    (hn : w'.path.Nodup) (hvu : v.Below u) : w'.Covers m u x := by
  rcases h with ⟨hx, r, hr, hv⟩ | h
  · obtain ⟨s, hs, hu⟩ := hvu.reached r hv
    refine Or.inl ⟨hp ▸ List.mem_append_right new hx, s, ?_, hu⟩
    rw [height_eq_of_append hp hn hx]
    exact Nat.le_trans hs hr
  · exact Or.inr fun c hc => hvu.gathered c (h c hc)

theorem Finished.mono (h : w.Finished m v x) {new : List ElementId}
    (hp : w'.path = new ++ w.path) (hn : w'.path.Nodup) (hvu : v.Below u) (hw : w.Keeps w') :
    w'.Finished m u x :=
  ⟨fun c hc => hvu.gathered c (h.1 c hc),
    fun t ht => ⟨(h.2 t ht).1.mono hp hn hvu, (h.2 t ht).2.mono hw⟩⟩

theorem Sound.length_path_le (h : w.Sound m) : w.path.length ≤ m.size := by
  have hsub : w.path ⊆ m.ids := fun x hx =>
    Forest.mem_ids_iff.2 (Forest.contains_of_isType (h.unknown_of_mem_path hx).1)
  simpa [Forest.ids] using h.path_nodup.length_le_of_subset hsub

theorem Sound.enter (h : w.Sound m) (hd : m.isType d) (hw : w.memos.get d = .unknown) :
    (w.enter d).Sound m := by
  have hnew : d ∉ w.path := fun hmem => by simpa [hw] using h.mem_path_iff.1 hmem
  have hget : ∀ x, (w.enter d).memos.get x = if d = x then .inProgress else w.memos.get x :=
    fun x => Column.get_put ..
  constructor
  · exact List.nodup_cons.2 ⟨hnew, h.path_nodup⟩
  · intro x
    rw [hget, Walk.enter, List.mem_cons, h.mem_path_iff]
    by_cases hx : d = x
    · simp [hx]
    · simp [hx, Ne.symm hx]
  · intro x hx
    rcases List.mem_cons.1 hx with rfl | hx
    · exact ⟨hd, h.unknown_before hw⟩
    · exact h.unknown_of_mem_path hx
  · intro x hx
    rw [hget] at hx
    split at hx
    · cases hx
    · exact h.unknown_before hx
  · intro x b ht hx
    rw [hget] at hx
    split at hx
    · cases hx
    · exact h.done ht hx
  · intro x b hunknown hx t ht
    rw [hget] at hx
    split at hx
    · cases hx
    · exact (h.knows hunknown hx t ht).mono (.enter w d)

theorem close_eq (hp : w'.path = inside ++ w.path) (b : Categories) :
    w'.close w.path.length b =
      ⟨inside.foldl (fun memos d => memos.put d (.done b)) w'.memos, w.path⟩ := by
  simp [close, hp]

theorem Keeps.close (hp : w'.path = inside ++ w.path) (b : Categories) :
    w'.Keeps (w'.close w.path.length b) := by
  intro x hx
  rw [close_eq hp]
  change (inside.foldl (fun memos d => memos.put d (.done b)) w'.memos).get x ≠ .unknown
  rw [w'.memos.get_foldl_put (fun _ => .done b)]
  split
  · exact CategoryMemo.noConfusion
  · exact hx

/-- What is remembered of the closed types is right if it is what each of them derives. -/
theorem Sound.close (h : w'.Sound m) (hp : w'.path = inside ++ w.path) {b : Categories}
    (hb : ∀ x ∈ inside, ∀ c, b.has c ↔ m.Derives x c)
    (hknown : ∀ x ∈ inside, ∀ t ∈ m.generalTypes x, w'.Knows m t) :
    (w'.close w.path.length b).Sound m := by
  have hkeeps : w'.Keeps (w'.close w.path.length b) := .close hp b
  have hdisjoint : ∀ {x}, x ∈ inside → x ∉ w.path := fun hx =>
    List.disjoint_of_nodup_append (hp ▸ h.path_nodup) hx
  have hout : ∀ {x}, x ∈ w.path → x ∈ w'.path := fun hx => hp ▸ List.mem_append_right _ hx
  have hget := w'.memos.get_foldl_put (fun _ => .done b) inside
  rw [close_eq hp] at hkeeps ⊢
  constructor
  · exact (List.nodup_append.1 (hp ▸ h.path_nodup)).2.1
  · intro x
    simp only [hget]
    by_cases hx : x ∈ inside
    · simp [hx, hdisjoint hx]
    · have hiff := h.mem_path_iff (x := x)
      rw [hp, List.mem_append] at hiff
      simpa [hx] using hiff
  · exact fun hx => h.unknown_of_mem_path (hout hx)
  · intro x hx
    simp only [hget] at hx
    split at hx
    · cases hx
    · exact h.unknown_before hx
  · intro x a ht hx
    simp only [hget] at hx
    split at hx
    · rename_i hmem
      cases hx
      exact hb x hmem
    · exact h.done ht hx
  · intro x a hunknown hx t ht
    simp only [hget] at hx
    split at hx
    · rename_i hmem
      exact (hknown x hmem t ht).mono hkeeps
    · exact (h.knows hunknown hx t ht).mono hkeeps

end Walk
end Kerml
