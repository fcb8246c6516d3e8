import Kerml.Declaration
import Kerml.Import
import Kerml.Specialization

/-!
# Forests of declarations

The written part of a model: declarations that own each other, their import directives and the
specializations they ask for.
-/
namespace Kerml

inductive Reference
  | element (d : ElementId)
  | path (segments : List String)
deriving DecidableEq, Repr

/-- A specialization as it is written, to be bound by linking. -/
structure Request where
  target : Reference
  kind : SpecializationKind
  visibility : Visibility := .pub
  span : Option Span := none
deriving DecidableEq, Repr

structure Element where
  declaration : Declaration
  owner : Option ElementId := none
  /-- The declarations it owns, in order. -/
  members : List ElementId := []
  /-- The end features among its members, if it relates them. -/
  ends : List ElementId := []
  imports : List Import := []
  requests : List Request := []
deriving Repr

/-- Enters a new member with its owner, and a new end with the relationship it belongs to. -/
def Element.addMember (e : Element) (d : ElementId) (isEnd : Bool) : Element :=
  { e with
    members := e.members ++ [d]
    ends := if isEnd && e.declaration.metaclass.isRelationship then e.ends ++ [d] else e.ends }

/-- Declarations in order of creation. An owner is created before its members. -/
structure Forest where
  elements : Array Element := #[]
  roots : List ElementId := []
deriving Repr

namespace Forest

def size (f : Forest) : Nat :=
  f.elements.size

def contains (f : Forest) (d : ElementId) : Bool :=
  d.index < f.size

def nextId (f : Forest) : ElementId :=
  ⟨f.size⟩

def ids (f : Forest) : List ElementId :=
  (List.range f.size).map ElementId.mk

def element? (f : Forest) (d : ElementId) : Option Element :=
  f.elements[d.index]?

def declaration? (f : Forest) (d : ElementId) : Option Declaration :=
  (f.element? d).map (·.declaration)

/-- The kind of a declaration. An unknown handle counts as a plain element. -/
def metaclass (f : Forest) (d : ElementId) : Metaclass :=
  ((f.declaration? d).map (·.metaclass)).getD .element

def isType (f : Forest) (d : ElementId) : Bool :=
  (f.metaclass d).isType

def declaredName (f : Forest) (d : ElementId) : Option String :=
  (f.declaration? d).bind (·.name)

def shortName (f : Forest) (d : ElementId) : Option String :=
  (f.declaration? d).bind (·.shortName)

def visibility (f : Forest) (d : ElementId) : Visibility :=
  ((f.declaration? d).map (·.visibility)).getD .pub

def span (f : Forest) (d : ElementId) : Option Span :=
  (f.declaration? d).bind (·.span)

def modifiers (f : Forest) (d : ElementId) : Modifiers :=
  ((f.declaration? d).map (·.modifiers)).getD {}

def owner (f : Forest) (d : ElementId) : Option ElementId :=
  (f.element? d).bind (·.owner)

def members (f : Forest) (d : ElementId) : List ElementId :=
  ((f.element? d).map (·.members)).getD []

def ends (f : Forest) (d : ElementId) : List ElementId :=
  ((f.element? d).map (·.ends)).getD []

def imports (f : Forest) (d : ElementId) : List Import :=
  ((f.element? d).map (·.imports)).getD []

def requests (f : Forest) (d : ElementId) : List Request :=
  ((f.element? d).map (·.requests)).getD []

def isBinary (f : Forest) (d : ElementId) : Bool :=
  (f.ends d).length == 2

def membersFor (f : Forest) (d : ElementId) (a : Audience) : List ElementId :=
  (f.members d).filter fun c => (f.visibility c).admits a

def ownerChain (f : Forest) (d : ElementId) : List ElementId :=
  d :: match f.owner d with
    | some o => if _h : o.index < d.index then f.ownerChain o else []
    | none => []
termination_by d.index

/-- A declaration and everything below it, owners before their members. -/
def subtree (f : Forest) (d : ElementId) : List ElementId :=
  d :: (f.members d).flatMap fun c =>
    if _h : d.index < c.index ∧ c.index < f.size then f.subtree c else []
termination_by f.size - d.index
decreasing_by omega

def preorder (f : Forest) : List ElementId :=
  f.roots.flatMap f.subtree

/-- Whether a declaration is another one or one of its owners. -/
def encloses (f : Forest) (ancestor d : ElementId) : Bool :=
  (f.ownerChain d).contains ancestor

def encloses? (f : Forest) (ancestor d : ElementId) : Option Bool :=
  if ancestor = d then some true
  else if f.contains d then some (f.encloses ancestor d)
  else none

def membersFor? (f : Forest) (d : ElementId) (a : Audience) : Option (List ElementId) :=
  if f.contains d then some (f.membersFor d a) else none

def modify (f : Forest) (d : ElementId) (change : Element → Element) : Forest :=
  { f with elements := f.elements.modify d.index change }

def addRoot (f : Forest) (declaration : Declaration) : Forest where
  elements := f.elements.push { declaration }
  roots := f.roots ++ [f.nextId]

def add (f : Forest) (owner : ElementId) (declaration : Declaration) : Except BuildError Forest :=
  if !f.contains owner then .error (.unknownElement owner)
  else if !declaration.metaclass.isFeature && declaration.modifiers.isAny then
    .error (.notAFeature declaration.metaclass)
  else
    let grown := f.modify owner (·.addMember f.nextId declaration.modifiers.isEnd)
    .ok { grown with elements := grown.elements.push { declaration, owner := some owner } }

def unknownTarget? (f : Forest) (r : Request) : Option ElementId :=
  match r.target with
  | .element t => if f.contains t then none else some t
  | .path _ => none

def request (f : Forest) (d : ElementId) (r : Request) : Except BuildError Forest :=
  if !f.contains d then .error (.unknownElement d)
  else
    match f.unknownTarget? r with
    | some t => .error (.unknownElement t)
    | none =>
      if !f.isType d then .error (.notAType (f.metaclass d) d)
      else .ok (f.modify d fun e => { e with requests := e.requests ++ [r] })

def clearRequests (f : Forest) (d : ElementId) : Except BuildError Forest :=
  if !f.contains d then .error (.unknownElement d)
  else .ok (f.modify d fun e => { e with requests := [] })

def addImport (f : Forest) (d : ElementId) (i : Import) : Except BuildError Forest :=
  if !f.contains d then .error (.unknownElement d)
  else if !(f.metaclass d).isNamespace then .error (.notANamespace (f.metaclass d) d)
  else .ok (f.modify d fun e => { e with imports := e.imports ++ [i] })

def setName (f : Forest) (d : ElementId) (name : Option String) : Except BuildError Forest :=
  if !f.contains d then .error (.unknownElement d)
  else .ok (f.modify d fun e => { e with declaration := { e.declaration with name } })

end Forest
end Kerml
