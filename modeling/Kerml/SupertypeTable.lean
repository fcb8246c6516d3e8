import Kerml.Metaclass
import Kerml.OrderedMap

/-! # The table of library declarations that declarations specialize without saying so -/
namespace Kerml

/-- The part that a declaration plays for the choice of its implied supertype. -/
inductive SupertypeRole
  /-- The default of the kind. -/
  | base
  /-- Associations and connectors with exactly two ends. -/
  | binary
  /-- Features typed by a data type. -/
  | dataValue
  /-- Features typed by a class. -/
  | occurrence
  /-- Composite features of a class inside a class. -/
  | suboccurrence
  /-- Features typed by a structure. -/
  | object
  /-- Composite features of a structure inside a structure. -/
  | subobject
  /-- Ends of associations and connectors. -/
  | participant
  /-- Composite steps inside a behavior or step. -/
  | subperformance
deriving DecidableEq, Repr

namespace SupertypeRole

def all : List SupertypeRole :=
  [base, binary, dataValue, occurrence, suboccurrence, object, subobject, participant,
   subperformance]

def name : SupertypeRole → String
  | base => "base"
  | binary => "binary"
  | dataValue => "dataValue"
  | occurrence => "occurrence"
  | suboccurrence => "suboccurrence"
  | object => "object"
  | subobject => "subobject"
  | participant => "participant"
  | subperformance => "subperformance"

def ofName? (s : String) : Option SupertypeRole :=
  all.find? (·.name == s)

theorem ofName?_name (r : SupertypeRole) : ofName? r.name = some r := by
  cases r <;> decide

end SupertypeRole

abbrev RolePaths := OrderedMap SupertypeRole String

/-- For each kind and role, the path of the implied supertype. -/
structure SupertypeTable where
  rows : OrderedMap Metaclass RolePaths := ∅
deriving DecidableEq, Repr

namespace SupertypeTable

def empty : SupertypeTable := {}

def insert (t : SupertypeTable) (k : Metaclass) (r : SupertypeRole) (path : String) :
    SupertypeTable :=
  ⟨t.rows.put k (((t.rows.get? k).getD ∅).put r path)⟩

def get? (t : SupertypeTable) (k : Metaclass) (r : SupertypeRole) : Option String :=
  (t.rows.get? k).bind (·.get? r)

/-- Takes out the path for a kind and role, and the kind with its last path. -/
def remove (t : SupertypeTable) (k : Metaclass) (r : SupertypeRole) : SupertypeTable :=
  match t.rows.get? k with
  | none => t
  | some paths =>
    let left := paths.erase r
    if left.isEmpty then ⟨t.rows.erase k⟩ else ⟨t.rows.put k left⟩

/-- The path for a kind and role. A participant is looked up among the features, and any other role
that the kind lacks stands for its base. -/
def pathFor? (t : SupertypeTable) (k : Metaclass) (r : SupertypeRole) : Option String :=
  (t.get? k r).or (if r = .participant then t.get? .feature r else t.get? k .base)

def entries (t : SupertypeTable) : List (Metaclass × SupertypeRole × String) :=
  t.rows.entries.flatMap fun row => row.2.entries.map fun cell => (row.1, cell.1, cell.2)

def size (t : SupertypeTable) : Nat :=
  (t.rows.entries.map (·.2.size)).foldr (· + ·) 0

/-- Whether the table has no row. A row without paths counts as a row. -/
def isEmpty (t : SupertypeTable) : Bool :=
  t.rows.isEmpty

/-- Whether two tables hold the same rows and paths, in whatever order. -/
def agrees (t u : SupertypeTable) : Bool :=
  t.rows.agrees (OrderedMap.agrees (· == ·)) u.rows

def ofEntries (entries : List (Metaclass × SupertypeRole × String)) : SupertypeTable :=
  entries.foldl (fun t e => t.insert e.1 e.2.1 e.2.2) empty

/-- The defaults of the KerML standard library. -/
def standard : SupertypeTable :=
  ofEntries
    [(.type, .base, "Base::Anything"),
     (.classifier, .base, "Base::Anything"),
     (.dataType, .base, "Base::DataValue"),
     (.klass, .base, "Occurrences::Occurrence"),
     (.struct, .base, "Objects::Object"),
     (.behavior, .base, "Performances::Performance"),
     (.function, .base, "Performances::Evaluation"),
     (.association, .base, "Links::Link"),
     (.association, .binary, "Links::BinaryLink"),
     (.associationStruct, .base, "Objects::ObjectLink"),
     (.associationStruct, .binary, "Objects::BinaryLinkObject"),
     (.feature, .base, "Base::things"),
     (.feature, .dataValue, "Base::dataValues"),
     (.feature, .occurrence, "Occurrences::occurrences"),
     (.feature, .suboccurrence, "Occurrences::Occurrence::suboccurrences"),
     (.feature, .object, "Objects::objects"),
     (.feature, .subobject, "Objects::Object::subobjects"),
     (.feature, .participant, "Links::Link::participant"),
     (.step, .base, "Performances::performances"),
     (.step, .subperformance, "Performances::Performance::subperformances"),
     (.expression, .base, "Performances::evaluations"),
     (.connector, .base, "Links::links"),
     (.connector, .binary, "Links::binaryLinks")]

end SupertypeTable
end Kerml
