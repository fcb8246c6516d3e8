import Kerml.Scope

/-! # What references that are written in a model stand for -/
namespace Kerml

inductive Resolution
  | found (d : ElementId)
  /-- Several declarations answer to it equally well. -/
  | ambiguous (candidates : List ElementId)
  | notFound
deriving DecidableEq, Repr

namespace Resolution

def element? : Resolution → Option ElementId
  | found d => some d
  | _ => none

def candidates : Resolution → List ElementId
  | found d => [d]
  | ambiguous ds => ds
  | notFound => []

def isFound (r : Resolution) : Bool :=
  r.element?.isSome

def isAmbiguous : Resolution → Bool
  | ambiguous _ => true
  | _ => false

def ofCandidates : List ElementId → Resolution
  | [] => notFound
  | [d] => found d
  | ds => ambiguous ds

end Resolution

/-- What a name stands for in a scope. Entries of a later origin than the first are shadowed. -/
def Scope.resolve (s : Scope) (name : String) : Resolution :=
  match s.lookup name with
  | [] => .notFound
  | e :: rest =>
    .ofCandidates (e.element :: (rest.filter (·.origin == e.origin)).map (·.element))

namespace Model

def resolveGlobal (m : Model) (name : String) : Resolution :=
  .ofCandidates (m.globals.filter (m.answersTo · name))

/-- What a name stands for in the first of several declarations at which it is visible, or else
outside of all. -/
def resolveOutward (m : Model) (name : String) : List ElementId → Resolution
  | [] => m.resolveGlobal name
  | d :: outer =>
    match (m.scope .inside d).resolve name with
    | .notFound => m.resolveOutward name outer
    | r => r

/-- What a name stands for at a declaration. The innermost of its owners at which the name is
visible decides. -/
def resolveSimple (m : Model) (d : ElementId) (name : String) : Resolution :=
  m.resolveOutward name (m.ownerChain d)

/-- Follows the later segments of a reference, each through what the one before shows to
others. -/
def resolveBelow (m : Model) (r : Resolution) : List String → Resolution
  | [] => r
  | name :: rest =>
    match r with
    | .found d => m.resolveBelow ((m.scope .outside d).resolve name) rest
    | r => r

def resolvePath (m : Model) (d : ElementId) : List String → Resolution
  | [] => .notFound
  | name :: rest => m.resolveBelow (m.resolveSimple d name) rest

def resolve (m : Model) (d : ElementId) (text : String) : Resolution :=
  match QualifiedName.parse? text with
  | none => .notFound
  | some path => m.resolvePath d path

def resolveSimple? (m : Model) (d : ElementId) (name : String) : Option Resolution :=
  if m.contains d then some (m.resolveSimple d name) else none

/-- What a reference stands for at a declaration, unless that is unknown and matters. -/
def resolve? (m : Model) (d : ElementId) (text : String) : Option Resolution :=
  if (QualifiedName.parse? text).isNone || m.contains d then some (m.resolve d text) else none

end Model
end Kerml
