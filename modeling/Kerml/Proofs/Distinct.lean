import Kerml.Distinct
import Mathlib.Data.List.Induction
import Mathlib.Data.List.Nodup
import Mathlib.Tactic.Common

/-!
# Order and keys of lists without their repetitions

They keep the order and the keys of the lists they come from, and of the elements that share a key
they keep the first.
-/
namespace Kerml

variable {α κ : Type} [BEq κ] [LawfulBEq κ] {key : α → κ}

theorem mem_map_distinctBy {k : κ} {as : List α} :
    k ∈ (distinctBy key as).map key ↔ k ∈ as.map key := by
  induction as with
  | nil => rfl
  | cons a as ih =>
    rw [distinctBy, List.map_cons, List.map_cons, List.mem_cons, List.mem_cons, ← ih]
    by_cases hk : k = key a
    · simp [hk]
    · have hne : key a ≠ k := Ne.symm hk
      simp only [hk, false_or, List.mem_map, List.mem_filter]
      constructor
      · rintro ⟨b, ⟨hb, -⟩, rfl⟩
        exact ⟨b, hb, rfl⟩
      · rintro ⟨b, hb, rfl⟩
        exact ⟨b, ⟨hb, by simpa using hne⟩, rfl⟩

theorem nodup_map_distinctBy (as : List α) : ((distinctBy key as).map key).Nodup := by
  induction as with
  | nil => exact List.nodup_nil
  | cons a as ih =>
    rw [distinctBy, List.map_cons, List.nodup_cons]
    refine ⟨?_, ih.sublist (List.filter_sublist.map key)⟩
    intro hmem
    obtain ⟨b, hb, hkey⟩ := List.mem_map.1 hmem
    have hne := (List.mem_filter.1 hb).2
    simp [hkey] at hne

theorem mem_distinct {k : κ} {as : List κ} : k ∈ distinct as ↔ k ∈ as := by
  have hkeys : k ∈ (distinctBy id as).map id ↔ k ∈ as.map id := mem_map_distinctBy
  simpa [distinct] using hkeys

theorem distinct_nodup (as : List κ) : (distinct as).Nodup := by
  have hkeys : ((distinctBy id as).map id).Nodup := nodup_map_distinctBy as
  simpa [distinct] using hkeys

omit [LawfulBEq κ] in
/-- What comes later is kept where nothing before it has its key. -/
theorem distinctBy_append (as bs : List α) :
    distinctBy key (as ++ bs) =
      distinctBy key as ++ (distinctBy key bs).filter fun b => as.all fun a => key a != key b := by
  induction as with
  | nil => simp [distinctBy]
  | cons a as ih =>
    rw [List.cons_append, distinctBy, ih, List.filter_append, List.filter_filter, distinctBy,
      List.cons_append]
    rfl

theorem distinctBy_concat (as : List α) (a : α) :
    distinctBy key (as ++ [a]) =
      if key a ∈ as.map key then distinctBy key as else distinctBy key as ++ [a] := by
  have hall : (as.all fun b => key b != key a) = !decide (key a ∈ as.map key) := by
    rw [Bool.eq_iff_iff]
    simp
  rw [distinctBy_append]
  by_cases h : key a ∈ as.map key <;> simp [distinctBy, hall, h]

theorem distinctBy_eq_self {as : List α} (h : (as.map key).Nodup) : distinctBy key as = as := by
  induction as with
  | nil => rfl
  | cons a as ih =>
    rw [List.map_cons, List.nodup_cons] at h
    rw [distinctBy, ih h.2, List.filter_eq_self.2]
    intro b hb
    have hne : key a ≠ key b := fun he => h.1 (he ▸ List.mem_map_of_mem hb)
    simpa using hne

/-- The first element with a key is kept. -/
theorem find?_distinctBy (as : List α) (k : κ) :
    (distinctBy key as).find? (key · == k) = as.find? (key · == k) := by
  induction as with
  | nil => rfl
  | cons a as ih =>
    rw [distinctBy]
    by_cases ha : key a = k
    · simp [ha]
    · have hleft : ∀ b, decide ((!key a == key b) = true ∧ (key b == k) = true) = (key b == k) := by
        intro b
        by_cases hb : key b = k <;> simp [hb, ha]
      rw [List.find?_cons_of_neg (by simpa using ha), List.find?_cons_of_neg (by simpa using ha),
        List.find?_filter, ← ih]
      simp only [hleft]

/-- Elements that each stand for themselves any number of times are left with those that do so at
all. -/
theorem distinct_flatMap {as : List κ} {f : κ → List κ} (hnodup : as.Nodup)
    (hf : ∀ a, ∀ b ∈ f a, b = a) : distinct (as.flatMap f) = as.filter fun a => !(f a).isEmpty := by
  have hone : ∀ a, distinct (f a) = if (f a).isEmpty then [] else [a] := by
    intro a
    cases hfa : f a with
    | nil => rfl
    | cons b rest =>
      have hall : ∀ c ∈ b :: rest, c = a := hfa ▸ hf a
      have hb : b = a := hall b List.mem_cons_self
      have hrest : (distinct rest).filter (fun c => !b == c) = [] := by
        rw [List.filter_eq_nil_iff]
        intro c hc
        simp [hb, hall c (List.mem_cons_of_mem b (mem_distinct.1 hc))]
      simpa [distinct, distinctBy, hb] using hrest
  induction as with
  | nil => rfl
  | cons a as ih =>
    obtain ⟨hnew, hnodup⟩ := List.nodup_cons.1 hnodup
    have hapart : (as.filter fun b => !(f b).isEmpty).filter
        (fun b => (f a).all fun c => c != b) = as.filter fun b => !(f b).isEmpty := by
      rw [List.filter_eq_self]
      intro b hb
      rw [List.all_eq_true]
      intro c hc
      have hne : a ≠ b := fun hab => hnew (hab ▸ (List.mem_filter.1 hb).1)
      simpa [hf a c hc] using hne
    have happend : distinct (f a ++ as.flatMap f) =
        distinct (f a) ++ (distinct (as.flatMap f)).filter fun b => (f a).all fun c => c != b :=
      distinctBy_append (f a) (as.flatMap f)
    rw [List.flatMap_cons, happend, ih hnodup, hapart, hone, List.filter_cons]
    cases (f a).isEmpty <;> rfl

/-- What elements are mapped to is kept where it is the first with its key. -/
theorem distinctBy_filterMap {β : Type} {key : β → κ} {f : α → Option β} {keyOf : α → κ}
    (hkey : ∀ {a b}, f a = some b → key b = keyOf a) (as : List α) :
    distinctBy key (as.filterMap f) = as.zipIdx.filterMap fun p =>
      if (as.take p.2).any fun a => keyOf a == keyOf p.1 && (f a).isSome then none else f p.1 := by
  induction as using List.reverseRecOn with
  | nil => rfl
  | append_singleton as a ih =>
    have hearlier : (as.zipIdx.filterMap fun p =>
        if ((as ++ [a]).take p.2).any fun a => keyOf a == keyOf p.1 && (f a).isSome then none
          else f p.1) = distinctBy key (as.filterMap f) := by
      rw [ih]
      refine List.filterMap_congr fun p hp => ?_
      have hlt : p.2 < as.length := by simpa using (List.mem_zipIdx hp).2.1
      rw [List.take_append_of_le_length (Nat.le_of_lt hlt)]
    rw [List.zipIdx_append, List.filterMap_append, List.filterMap_append, hearlier]
    cases hf : f a with
    | none => simp [hf]
    | some b =>
      have hknown : key b ∈ (as.filterMap f).map key ↔
          as.any (fun c => keyOf c == keyOf a && (f c).isSome) := by
        rw [List.mem_map, List.any_eq_true]
        constructor
        · rintro ⟨x, hx, hxb⟩
          obtain ⟨c, hc, hcx⟩ := List.mem_filterMap.1 hx
          exact ⟨c, hc, by simp [hcx, ← hkey hcx, hxb, hkey hf]⟩
        · rintro ⟨c, hc, hboth⟩
          rw [Bool.and_eq_true, beq_iff_eq] at hboth
          obtain ⟨x, hcx⟩ := Option.isSome_iff_exists.1 hboth.2
          exact ⟨x, List.mem_filterMap.2 ⟨c, hc, hcx⟩, by rw [hkey hcx, hkey hf, hboth.1]⟩
      have hone : [a].filterMap f = [b] := by simp [hf]
      rw [hone, distinctBy_concat]
      simp only [List.zipIdx_singleton, Nat.zero_add, List.filterMap_cons, List.filterMap_nil,
        List.take_left, hf]
      by_cases hany : key b ∈ (as.filterMap f).map key
      · rw [if_pos hany, if_pos (hknown.1 hany), List.append_nil]
      · rw [if_neg hany, if_neg (mt hknown.2 hany)]

end Kerml
