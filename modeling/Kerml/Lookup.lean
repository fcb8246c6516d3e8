import Kerml.Model

/-! # Looking up paths by containment -/
namespace Kerml

inductive Lookup
  | found (d : ElementId)
  /-- A declaration on the path is hidden from where the path is written. -/
  | hidden (d : ElementId)
  | missing
deriving DecidableEq, Repr

def Lookup.found? : Lookup → Option ElementId
  | found d => some d
  | _ => none

theorem Lookup.found?_eq_some_iff {l : Lookup} {d : ElementId} :
    l.found? = some d ↔ l = .found d := by
  cases l <;> simp [found?]

namespace Model

def memberNamed? (m : Model) (d : ElementId) (name : String) : Option ElementId :=
  (m.members d).find? (m.answersTo · name)

/-- The declarations whose members a name is looked up among, innermost first. -/
def enclosing (m : Model) (site : Option ElementId) : List ElementId :=
  (site.map m.ownerChain).getD []

/-- What a name means at a site: a member of the innermost enclosing declaration that has one, or
else a global declaration. -/
def lookupLexical? (m : Model) (site : Option ElementId) (name : String) : Option ElementId :=
  ((m.enclosing site).findSome? (m.memberNamed? · name)).or (m.globals.find? (m.answersTo · name))

/-- Whether a site sees a member of a declaration: it is public, or the declaration encloses the
site. -/
def sees (m : Model) (site : Option ElementId) (d member : ElementId) : Bool :=
  m.visibility member == .pub || (m.enclosing site).contains d

def descend (m : Model) (site : Option ElementId) (d : ElementId) : List String → Lookup
  | [] => .found d
  | name :: rest =>
    match m.memberNamed? d name with
    | none => .missing
    | some member =>
      if m.sees site d member then m.descend site member rest else .hidden member

/-- Looks up a path as written at a site, or outside of all declarations. -/
def lookup (m : Model) (site : Option ElementId) : List String → Lookup
  | [] => .missing
  | name :: rest =>
    match m.lookupLexical? site name with
    | none => .missing
    | some d => m.descend site d rest

/-- Looks up a path, unless its site is unknown and matters. -/
def lookup? (m : Model) (site : Option ElementId) (path : List String) : Option Lookup :=
  if path.isEmpty || site.all m.contains then some (m.lookup site path) else none

def find? (m : Model) (text : String) : Option ElementId :=
  (QualifiedName.parse? text).bind fun path => (m.lookup none path).found?

def importTarget? (m : Model) (d : ElementId) (i : Import) : Option ElementId :=
  (m.lookup (some d) i.path).found?

end Model
end Kerml
