/-! # Maps that keep their keys in the order in which they were first put -/
namespace Kerml

/-- A map as the list of its entries. No key has two of them. -/
structure OrderedMap (κ υ : Type) where
  entries : List (κ × υ) := []
  nodup_keys : (entries.map (·.1)).Nodup := by simp
deriving DecidableEq, Repr

namespace OrderedMap

variable {κ υ : Type} [DecidableEq κ]

instance : EmptyCollection (OrderedMap κ υ) := ⟨{}⟩
instance : Inhabited (OrderedMap κ υ) := ⟨∅⟩

def get? (m : OrderedMap κ υ) (k : κ) : Option υ :=
  m.entries.lookup k

/-- The entries after a value is put under a key: a known key keeps its place, a new one comes
last. -/
def putEntry (k : κ) (v : υ) : List (κ × υ) → List (κ × υ)
  | [] => [(k, v)]
  | e :: rest => if e.1 = k then (e.1, v) :: rest else e :: putEntry k v rest

theorem mem_keys_putEntry {k l : κ} {v : υ} {entries : List (κ × υ)} :
    l ∈ (putEntry k v entries).map (·.1) ↔ l = k ∨ l ∈ entries.map (·.1) := by
  induction entries with
  | nil => simp [putEntry]
  | cons e rest ih =>
    by_cases h : e.1 = k
    · simp [putEntry, h]
    · simp only [putEntry, if_neg h, List.map_cons, List.mem_cons, ih]
      exact or_left_comm

theorem nodup_keys_putEntry {k : κ} {v : υ} {entries : List (κ × υ)}
    (h : (entries.map (·.1)).Nodup) : ((putEntry k v entries).map (·.1)).Nodup := by
  induction entries with
  | nil => simp [putEntry]
  | cons e rest ih =>
    simp only [List.map_cons, List.nodup_cons] at h
    by_cases hk : e.1 = k
    · simpa [putEntry, hk] using h
    · simp only [putEntry, if_neg hk, List.map_cons, List.nodup_cons, mem_keys_putEntry]
      exact ⟨fun hm => hm.elim hk h.1, ih h.2⟩

def put (m : OrderedMap κ υ) (k : κ) (v : υ) : OrderedMap κ υ :=
  ⟨putEntry k v m.entries, nodup_keys_putEntry m.nodup_keys⟩

def erase (m : OrderedMap κ υ) (k : κ) : OrderedMap κ υ :=
  ⟨m.entries.filter fun e => e.1 != k, m.nodup_keys.sublist (List.filter_sublist.map _)⟩

def ofList (entries : List (κ × υ)) : OrderedMap κ υ :=
  entries.foldl (fun m e => m.put e.1 e.2) ∅

def size (m : OrderedMap κ υ) : Nat :=
  m.entries.length

def isEmpty (m : OrderedMap κ υ) : Bool :=
  m.entries.isEmpty

/-- Whether two maps have the same keys, in whatever order, and related values under them. -/
def agrees (related : υ → υ → Bool) (m n : OrderedMap κ υ) : Bool :=
  m.size == n.size && m.entries.all fun e => (n.get? e.1).any (related e.2)

end OrderedMap
end Kerml
