import Kerml.Proofs.OrderedMap
import Kerml.SupertypeTable.File

/-!
# Tables against what they hold for each kind and role

A table read from a file can have a row without paths, which holds nothing and still makes the
table differ from one without that row. Rows of this sort are never made by changes to a table,
and a change to the kind takes them away.
-/
namespace Kerml.SupertypeTable

inductive Edit
  | insert (k : Metaclass) (r : SupertypeRole) (path : String)
  | remove (k : Metaclass) (r : SupertypeRole)
deriving DecidableEq, Repr

def Edit.kind : Edit → Metaclass
  | insert k _ _ => k
  | remove k _ => k

def edit (t : SupertypeTable) : Edit → SupertypeTable
  | .insert k r path => t.insert k r path
  | .remove k r => t.remove k r

def editAll (t : SupertypeTable) (edits : List Edit) : SupertypeTable :=
  edits.foldl edit t

/-- Whether a table has a row for a kind, but no path in it. -/
def HasEmptyRow (t : SupertypeTable) (k : Metaclass) : Prop :=
  t.rows.get? k = some ∅

instance (t : SupertypeTable) (k : Metaclass) : Decidable (t.HasEmptyRow k) :=
  inferInstanceAs (Decidable (_ = _))

variable {t u : SupertypeTable} {k : Metaclass}

theorem get?_eq_none_iff :
    (∀ r, t.get? k r = none) ↔ t.rows.get? k = none ∨ t.HasEmptyRow k := by
  rw [HasEmptyRow]
  cases h : t.rows.get? k with
  | none => simp [get?, h]
  | some paths => simp [get?, h, OrderedMap.eq_empty_iff]

theorem isEmpty_iff : t.isEmpty ↔ ∀ k, t.rows.get? k = none := by
  rw [isEmpty, OrderedMap.isEmpty_iff, OrderedMap.eq_empty_iff]

theorem size_eq_zero_iff : t.size = 0 ↔ ∀ k r, t.get? k r = none := by
  have hsum : ∀ sizes : List Nat, sizes.foldr (· + ·) 0 = 0 ↔ ∀ n ∈ sizes, n = 0 := by
    intro sizes
    induction sizes with
    | nil => simp
    | cons n sizes ih => rw [List.foldr_cons, Nat.add_eq_zero_iff, ih, List.forall_mem_cons]
  rw [size, hsum, List.forall_mem_map]
  constructor
  · intro hrows k
    rw [get?_eq_none_iff]
    cases hrow : t.rows.get? k with
    | none => exact Or.inl rfl
    | some paths =>
      have hsize := hrows (k, paths) (OrderedMap.get?_eq_some_iff.1 hrow)
      exact Or.inr (hrow.trans (congrArg some (OrderedMap.size_eq_zero_iff.1 hsize)))
  · rintro hnone ⟨k, paths⟩ hrow
    rw [← OrderedMap.get?_eq_some_iff] at hrow
    rcases get?_eq_none_iff.1 (hnone k) with h | h
    · cases h.symm.trans hrow
    · cases h.symm.trans hrow
      rfl

/-- Rows agree if they hold the same and neither is there without paths where the other is not. -/
theorem rel_agrees_iff {a b : Option RolePaths} :
    Option.Rel (fun x y => x.agrees (· == ·) y) a b ↔
      (∀ r, a.bind (·.get? r) = b.bind (·.get? r)) ∧ (a = some ∅ ↔ b = some ∅) := by
  cases a with
  | none =>
    cases b with
    | none => simp
    | some y =>
      simp only [Option.not_rel_none_some, Option.bind_none, Option.bind_some, reduceCtorEq,
        false_iff, Option.some.injEq, OrderedMap.eq_empty_iff, not_and]
      exact fun hnone hfilled => hfilled fun r => (hnone r).symm
  | some x =>
    cases b with
    | none => simp [OrderedMap.eq_empty_iff]
    | some y =>
      simp only [Option.rel_some_some, OrderedMap.agrees_beq_iff, Option.bind_some,
        Option.some.injEq, OrderedMap.eq_empty_iff]
      exact ⟨fun h => ⟨h, by simp only [h]⟩, fun h => h.1⟩

/-- Tables agree if they hold the same and have the same rows without paths. -/
theorem agrees_iff : t.agrees u ↔
    (∀ k r, t.get? k r = u.get? k r) ∧ ∀ k, t.HasEmptyRow k ↔ u.HasEmptyRow k := by
  rw [agrees, OrderedMap.agrees_iff, ← forall_and]
  exact forall_congr' fun k => rel_agrees_iff

private theorem get?_rows_insert (t : SupertypeTable) (k l : Metaclass) (r : SupertypeRole)
    (path : String) : (t.insert k r path).rows.get? l =
      if k = l then some (((t.rows.get? k).getD ∅).put r path) else t.rows.get? l :=
  OrderedMap.get?_put ..

private theorem get?_rows_remove (t : SupertypeTable) (k l : Metaclass) (r : SupertypeRole) :
    (t.remove k r).rows.get? l =
      if k = l then ((t.rows.get? k).map (·.erase r)).filter (!·.isEmpty) else t.rows.get? l := by
  rw [remove]
  cases hrow : t.rows.get? k with
  | none =>
    by_cases h : k = l
    · rw [if_pos h, ← h, hrow]
      rfl
    · rw [if_neg h]
  | some paths =>
    simp only [Option.map_some, Option.filter_some]
    cases hleft : (paths.erase r).isEmpty with
    | true => simp [OrderedMap.get?_erase]
    | false => simp [OrderedMap.get?_put]

private theorem put_ne_empty (paths : RolePaths) (r : SupertypeRole) (path : String) :
    paths.put r path ≠ ∅ := by
  intro hempty
  have hnone := OrderedMap.eq_empty_iff.1 hempty r
  rw [OrderedMap.get?_put, if_pos rfl] at hnone
  cases hnone

/-- A change leaves no row without paths for its kind, and makes none for another one. -/
theorem hasEmptyRow_edit (e : Edit) :
    (t.edit e).HasEmptyRow k ↔ t.HasEmptyRow k ∧ e.kind ≠ k := by
  cases e with
  | insert l r path =>
    rw [edit, HasEmptyRow, get?_rows_insert, HasEmptyRow, Edit.kind]
    by_cases h : l = k
    · simp [h, put_ne_empty]
    · simp [h]
  | remove l r =>
    rw [edit, HasEmptyRow, get?_rows_remove, HasEmptyRow, Edit.kind]
    by_cases h : l = k
    · simp only [h, if_pos, ne_eq, not_true_eq_false, and_false, iff_false,
        Option.filter_eq_some_iff]
      rintro ⟨-, hfilled⟩
      cases hfilled
    · simp [h]

theorem hasEmptyRow_editAll (edits : List Edit) :
    (t.editAll edits).HasEmptyRow k ↔ t.HasEmptyRow k ∧ ∀ e ∈ edits, e.kind ≠ k := by
  induction edits generalizing t with
  | nil => simp [editAll]
  | cons e edits ih =>
    rw [List.forall_mem_cons, ← and_assoc, ← hasEmptyRow_edit]
    exact ih

theorem not_hasEmptyRow_empty (k : Metaclass) : ¬ empty.HasEmptyRow k := by
  intro h
  cases h

/-- Tables that entries are inserted into one after the other are made by changes. -/
theorem ofEntries_eq_editAll (entries : List (Metaclass × SupertypeRole × String)) :
    ofEntries entries = empty.editAll (entries.map fun e => .insert e.1 e.2.1 e.2.2) := by
  rw [ofEntries, editAll, List.foldl_map]
  rfl

private theorem not_hasEmptyRow_standard (k : Metaclass) : ¬ standard.HasEmptyRow k := by
  rw [standard, ofEntries_eq_editAll, hasEmptyRow_editAll]
  exact fun h => not_hasEmptyRow_empty k h.1

/-- A table has size zero if and only if it holds nothing. It is empty, and agrees with another
table that holds the same, only if rows without paths do not stand in the way. Such rows are not
there in a table made from nothing or from the defaults. In any other one they stay until a change
names their kind. -/
theorem isEmpty_and_agrees_iff (t u : SupertypeTable) :
    (t.size = 0 ↔ ∀ k r, t.get? k r = none) ∧
    (t.isEmpty ↔ t.size = 0 ∧ ∀ k, ¬ t.HasEmptyRow k) ∧
    (t.agrees u ↔ (∀ k r, t.get? k r = u.get? k r) ∧ ∀ k, t.HasEmptyRow k ↔ u.HasEmptyRow k) ∧
    (∀ edits k, (t.editAll edits).HasEmptyRow k ↔ t.HasEmptyRow k ∧ ∀ e ∈ edits, e.kind ≠ k) ∧
    ∀ edits k, ¬ (empty.editAll edits).HasEmptyRow k ∧ ¬ (standard.editAll edits).HasEmptyRow k := by
  refine ⟨size_eq_zero_iff, ?_, agrees_iff, fun edits k => hasEmptyRow_editAll edits,
    fun edits k => ⟨?_, ?_⟩⟩
  · rw [isEmpty_iff, size_eq_zero_iff, ← forall_and]
    refine forall_congr' fun k => ?_
    rw [get?_eq_none_iff, HasEmptyRow]
    cases t.rows.get? k <;> simp
  · exact fun h => not_hasEmptyRow_empty k ((hasEmptyRow_editAll edits).1 h).1
  · exact fun h => not_hasEmptyRow_standard k ((hasEmptyRow_editAll edits).1 h).1

def featuresAlone : SupertypeTable := ⟨.ofList [(.feature, ∅)]⟩

/-- A table can hold nothing and yet be read from a file without being empty: the file may name a
kind without a path for it. -/
theorem featuresAlone_not_empty :
    TableFormat.json.parse "\x7b\"Feature\": \x7b\x7d\x7d" = .ok featuresAlone ∧
    featuresAlone.isEmpty = false ∧ featuresAlone.size = 0 ∧ featuresAlone.agrees empty = false ∧
    ¬ ∀ (text : String) (t : SupertypeTable), TableFormat.json.parse text = .ok t →
      (t.isEmpty ↔ ∀ k r, t.get? k r = none) ∧
      (t.agrees empty ↔ ∀ k r, t.get? k r = empty.get? k r) := by
  have hparse : TableFormat.json.parse "\x7b\"Feature\": \x7b\x7d\x7d" = .ok featuresAlone := by
    decide +kernel
  have hnone : ∀ k r, featuresAlone.get? k r = none := by
    intro k r
    cases k <;> rfl
  refine ⟨hparse, by decide, by decide, by decide, fun hall => ?_⟩
  exact absurd ((hall _ _ hparse).1.2 hnone) (by decide)

end Kerml.SupertypeTable
