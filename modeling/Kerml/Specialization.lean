import Kerml.ElementId
import Kerml.Metaclass
import Kerml.Visibility

/-!
# Specializations of a type

They are held in lists, one per general type.
-/
namespace Kerml

/-- The kind of a specialization, as a set of marks. There are the seven marks that the named kinds are
made of and no others. A kind that refines another one holds its marks too. -/
structure SpecializationKind where
  marks : BitVec 7
deriving DecidableEq, Repr

namespace SpecializationKind

def ofCode (n : Nat) : SpecializationKind :=
  ⟨BitVec.ofNat 7 n⟩

def code (k : SpecializationKind) : Nat :=
  k.marks.toNat

def specialization : SpecializationKind := ofCode 0b1

def conjugation : SpecializationKind := ofCode 0b11

def subclassification : SpecializationKind := ofCode 0b101

def subsetting : SpecializationKind := ofCode 0b1001

def redefinition : SpecializationKind := ofCode 0b11001

def referenceSubsetting : SpecializationKind := ofCode 0b101001

def typing : SpecializationKind := ofCode 0b1000001

def includes (k query : SpecializationKind) : Bool :=
  k.marks &&& query.marks == query.marks

def isRedefinition (k : SpecializationKind) : Bool :=
  k.includes redefinition

/-- The keyword of the most refined named kind that a kind includes. -/
def keyword (k : SpecializationKind) : String :=
  if k.includes redefinition then "redefines"
  else if k.includes referenceSubsetting then "references"
  else if k.includes subsetting then "subsets"
  else if k.includes typing then "typed by"
  else if k.includes conjugation then "conjugates"
  else "specializes"

end SpecializationKind

def Metaclass.generalKind (k : Metaclass) : SpecializationKind :=
  if k.isFeature then .subsetting
  else if k.isClassifier then .subclassification
  else .specialization

structure Specialization where
  general : ElementId
  kind : SpecializationKind
  /-- It was added by linking and not written down. -/
  isImplied : Bool := false
  visibility : Visibility := .pub
deriving DecidableEq, Repr

namespace Specialization

/-- Adds a specialization unless there is one of the same general type. -/
def record (held : List Specialization) (s : Specialization) : List Specialization :=
  if held.any (·.general == s.general) then held else held ++ [s]

def matching (held : List Specialization) (query : SpecializationKind) : List Specialization :=
  held.filter (·.kind.includes query)

def toward? (held : List Specialization) (general : ElementId) : Option Specialization :=
  held.find? (·.general == general)

def hasWritten (held : List Specialization) (query : SpecializationKind) : Bool :=
  held.any fun s => !s.isImplied && s.kind.includes query

end Specialization
end Kerml
