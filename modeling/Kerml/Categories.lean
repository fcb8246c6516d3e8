/-!
# Built-in categories of types

The categories a type can belong to, and sets of them.
-/
namespace Kerml

/-- A built-in root that types specialize, directly or not. -/
inductive Category
  | type
  | classifier
  | dataType
  | klass
  | struct
  | behavior
  | function
  | association
deriving DecidableEq, Repr

structure Categories where
  type : Bool := false
  classifier : Bool := false
  dataType : Bool := false
  klass : Bool := false
  struct : Bool := false
  behavior : Bool := false
  function : Bool := false
  association : Bool := false
deriving DecidableEq, Repr

namespace Categories

instance : EmptyCollection Categories := ⟨{}⟩
instance : Inhabited Categories := ⟨∅⟩

def has (s : Categories) : Category → Bool
  | .type => s.type
  | .classifier => s.classifier
  | .dataType => s.dataType
  | .klass => s.klass
  | .struct => s.struct
  | .behavior => s.behavior
  | .function => s.function
  | .association => s.association

def union (s t : Categories) : Categories where
  type := s.type || t.type
  classifier := s.classifier || t.classifier
  dataType := s.dataType || t.dataType
  klass := s.klass || t.klass
  struct := s.struct || t.struct
  behavior := s.behavior || t.behavior
  function := s.function || t.function
  association := s.association || t.association

instance : Union Categories := ⟨union⟩

def code (s : Categories) : Nat :=
  s.type.toNat + 2 * s.classifier.toNat + 4 * s.dataType.toNat + 8 * s.klass.toNat +
    16 * s.struct.toNat + 32 * s.behavior.toNat + 64 * s.function.toNat +
    128 * s.association.toNat

@[simp] theorem has_empty (c : Category) : (∅ : Categories).has c = false := by
  cases c <;> rfl

@[simp] theorem has_union (s t : Categories) (c : Category) :
    (s ∪ t).has c = (s.has c || t.has c) := by
  cases c <;> rfl

theorem eq_of_has {s t : Categories} (h : ∀ c, s.has c = t.has c) : s = t := by
  have h1 := h .type
  have h2 := h .classifier
  have h3 := h .dataType
  have h4 := h .klass
  have h5 := h .struct
  have h6 := h .behavior
  have h7 := h .function
  have h8 := h .association
  cases s
  cases t
  simp_all [has]

end Categories
end Kerml
