import Kerml.Column
import Kerml.Diagnostic
import Kerml.Forest
import Kerml.SupertypeTable

/-!
# Models

What is written down together with what linking and queries have derived from it.
-/
namespace Kerml

/-- What is remembered of the categories of a type. -/
inductive CategoryMemo
  | unknown
  /-- They are being derived. -/
  | inProgress
  | done (categories : Categories)
deriving DecidableEq, Repr, Inhabited

/-- A forest of declarations, the library that it is linked with, and what has been derived. -/
structure Model extends Forest where
  library : SupertypeTable := .standard
  /-- The specializations of each type. -/
  specializations : Column (List Specialization) := ∅
  /-- The names that unnamed features take from what they redefine. -/
  takenNames : Column (Option String) := ∅
  /-- The categories of the types that have been asked for. -/
  memos : Column CategoryMemo := ∅
  /-- The qualified names that have been asked for. -/
  knownNames : Column (Option String) := ∅
  /-- The problems that linking found. -/
  report : Report := ∅
deriving Repr

namespace Model

/-- The declared name, or else the name taken from a redefined feature. -/
def effectiveName (m : Model) (d : ElementId) : Option String :=
  (m.declaredName d).or (m.takenNames.get d)

/-- Whether a declaration can be referred to by the name. -/
def answersTo (m : Model) (d : ElementId) (name : String) : Bool :=
  m.effectiveName d == some name || m.shortName d == some name

def answersTo? (m : Model) (d : ElementId) (name : String) : Option Bool :=
  if m.contains d then some (m.answersTo d name) else none

/-- The declarations that need no qualification anywhere: roots with a name, and the members of
roots without one. -/
def globals (m : Model) : List ElementId :=
  m.roots.flatMap fun r => if (m.effectiveName r).isSome then [r] else m.members r

/-- A name below the qualified name of an owner, which is empty when no owner has a name. -/
def qualify (upper : String) : Option String → String
  | none => upper
  | some name =>
    if upper.isEmpty then QualifiedName.quote name else upper ++ "::" ++ QualifiedName.quote name

/-- The effective names from the root down to a declaration, joined. A name that is already known
is not put together again. -/
def qualifiedName (m : Model) (d : ElementId) : String :=
  match m.knownNames.get d with
  | some known => known
  | none =>
    match m.owner d with
    | some o =>
      if _h : o.index < d.index then qualify (m.qualifiedName o) (m.effectiveName d)
      else qualify "" (m.effectiveName d)
    | none => qualify "" (m.effectiveName d)
termination_by d.index

def rememberName (m : Model) (d : ElementId) : Model :=
  { m with
    knownNames := (m.ownerChain d).foldl (fun names c => names.put c (some (m.qualifiedName c)))
      m.knownNames }

def forgetNames (m : Model) (d : ElementId) : Model :=
  { m with knownNames := m.knownNames.clearWhere fun e => m.encloses d e }

def askName? (m : Model) (d : ElementId) : Option (String × Model) :=
  if m.contains d then some (m.qualifiedName d, m.rememberName d) else none

def askNames (m : Model) : List String × Model :=
  (m.ids.map m.qualifiedName, m.ids.foldl rememberName m)

def specializationsOf (m : Model) (d : ElementId) (query : SpecializationKind) :
    List Specialization :=
  Specialization.matching (m.specializations.get d) query

/-- Replaces what is written down and keeps what has been derived. -/
def withForest (m : Model) (f : Forest) : Model :=
  { m with toForest := f }

def addRoot (m : Model) (declaration : Declaration) : ElementId × Model :=
  (m.nextId, m.withForest (m.toForest.addRoot declaration))

def add (m : Model) (owner : ElementId) (declaration : Declaration) :
    Except BuildError (ElementId × Model) :=
  (m.toForest.add owner declaration).map fun f => (m.nextId, m.withForest f)

/-- Writes down a specialization. Linking applies it. -/
def request (m : Model) (d : ElementId) (r : Request) : Except BuildError Model :=
  (m.toForest.request d r).map m.withForest

def clearRequests (m : Model) (d : ElementId) : Except BuildError Model :=
  (m.toForest.clearRequests d).map m.withForest

def addImport (m : Model) (d : ElementId) (i : Import) : Except BuildError Model :=
  (m.toForest.addImport d i).map m.withForest

def setName (m : Model) (d : ElementId) (name : Option String) : Except BuildError Model :=
  (m.toForest.setName d name).map fun f => (m.withForest f).forgetNames d

end Model
end Kerml
