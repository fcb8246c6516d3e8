import Kerml.Categories

/-! # Kinds of declarations and what each is capable of -/
namespace Kerml

inductive Metaclass
  | element
  | plainNamespace
  | package
  | libraryPackage
  | type
  | classifier
  | dataType
  | klass
  | struct
  | behavior
  | function
  | association
  | associationStruct
  | feature
  | step
  | expression
  | connector
deriving DecidableEq, Repr, Inhabited

structure Capabilities where
  /-- They own members and import directives. -/
  ownsMembers : Bool := false
  /-- They specialize other declarations. -/
  specializes : Bool := false
  /-- They classify instances. -/
  classifies : Bool := false
  /-- They are features. -/
  featured : Bool := false
  /-- They relate end features. -/
  relates : Bool := false
deriving DecidableEq, Repr

def Capabilities.code (c : Capabilities) : Nat :=
  c.ownsMembers.toNat + 2 * c.specializes.toNat + 4 * c.classifies.toNat + 8 * c.featured.toNat +
    16 * c.relates.toNat

namespace Metaclass

def all : List Metaclass :=
  [element, plainNamespace, package, libraryPackage, type, classifier, dataType, klass, struct,
   behavior, function, association, associationStruct, feature, step, expression, connector]

def position (k : Metaclass) : Nat :=
  all.idxOf k

def capabilities : Metaclass → Capabilities
  | element => {}
  | plainNamespace | package | libraryPackage => { ownsMembers := true }
  | type => { ownsMembers := true, specializes := true }
  | classifier | dataType | klass | struct | behavior | function =>
    { ownsMembers := true, specializes := true, classifies := true }
  | association | associationStruct =>
    { ownsMembers := true, specializes := true, classifies := true, relates := true }
  | feature | step | expression =>
    { ownsMembers := true, specializes := true, featured := true }
  | connector => { ownsMembers := true, specializes := true, featured := true, relates := true }

def isNamespace (k : Metaclass) : Bool := k.capabilities.ownsMembers

def isType (k : Metaclass) : Bool := k.capabilities.specializes

def isClassifier (k : Metaclass) : Bool := k.capabilities.classifies

def isFeature (k : Metaclass) : Bool := k.capabilities.featured

def isRelationship (k : Metaclass) : Bool := k.capabilities.relates

def isPerformance : Metaclass → Bool
  | behavior | function | step | expression => true
  | _ => false

def categories : Metaclass → Categories
  | type => { type := true }
  | classifier => { type := true, classifier := true }
  | dataType => { type := true, classifier := true, dataType := true }
  | klass => { type := true, classifier := true, klass := true }
  | struct => { type := true, classifier := true, klass := true, struct := true }
  | behavior => { type := true, classifier := true, klass := true, behavior := true }
  | function =>
    { type := true, classifier := true, klass := true, behavior := true, function := true }
  | association => { type := true, classifier := true, association := true }
  | associationStruct =>
    { type := true, classifier := true, klass := true, struct := true, association := true }
  | _ => ∅

def name : Metaclass → String
  | element => "Element"
  | plainNamespace => "Namespace"
  | package => "Package"
  | libraryPackage => "LibraryPackage"
  | type => "Type"
  | classifier => "Classifier"
  | dataType => "DataType"
  | klass => "Class"
  | struct => "Structure"
  | behavior => "Behavior"
  | function => "Function"
  | association => "Association"
  | associationStruct => "AssociationStructure"
  | feature => "Feature"
  | step => "Step"
  | expression => "Expression"
  | connector => "Connector"

def ofName? (s : String) : Option Metaclass :=
  all.find? (·.name == s)

def keyword : Metaclass → String
  | element => "element"
  | plainNamespace => "namespace"
  | package => "package"
  | libraryPackage => "library package"
  | type => "type"
  | classifier => "classifier"
  | dataType => "datatype"
  | klass => "class"
  | struct => "struct"
  | behavior => "behavior"
  | function => "function"
  | association => "assoc"
  | associationStruct => "assoc struct"
  | feature => "feature"
  | step => "step"
  | expression => "expr"
  | connector => "connector"

theorem ofName?_name (k : Metaclass) : ofName? k.name = some k := by
  cases k <;> decide

end Metaclass
end Kerml
