import Kerml.Imported

/-!
# Scopes

The names that are visible at a declaration, in order. Own members come first, then imports, then
the declaration itself and what it inherits. Redefined features are left out.
-/
namespace Kerml

inductive Viewpoint
  /-- From within: private members and protected members of supertypes are visible. -/
  | inside
  /-- From elsewhere: what is public is visible. -/
  | outside
deriving DecidableEq, Repr

namespace Viewpoint

/-- How the members of the declaration itself are looked at. -/
def ownAudience : Viewpoint → Audience
  | inside => .owner
  | outside => .outsider

/-- How the members of its supertypes are looked at. -/
def heirAudience : Viewpoint → Audience
  | inside => .heir
  | outside => .outsider

/-- Whether members are inherited along a specialization of the given visibility. The flag says that
it belongs to the declaration that is looked at. -/
def follows (v : Viewpoint) (isOwn : Bool) (visibility : Visibility) : Bool :=
  match v with
  | inside => isOwn || visibility != .priv
  | outside => visibility == .pub

end Viewpoint

inductive Origin
  | own
  | imported
  | inherited
deriving DecidableEq, Repr

structure Candidate where
  element : ElementId
  newName : Option String := none
  origin : Origin
deriving DecidableEq, Repr

structure ScopeEntry where
  /-- The name under which it is visible. -/
  name : String
  /-- Its short name, unless it is visible under a new name. -/
  shortName : Option String
  qualifiedName : String
  element : ElementId
  origin : Origin
deriving DecidableEq, Repr

structure Scope where
  entries : List ScopeEntry := []
  diagnostics : List Diagnostic := []
deriving DecidableEq, Repr

namespace Scope

def elements (s : Scope) : List ElementId :=
  s.entries.map (·.element)

def qualifiedNames (s : Scope) : List String :=
  s.entries.map (·.qualifiedName)

def shows (s : Scope) (d : ElementId) : Bool :=
  s.entries.any (·.element == d)

def lookup (s : Scope) (name : String) : List ScopeEntry :=
  s.entries.filter fun e => e.name == name || e.shortName == some name

end Scope

/-- A supertype that inheritance reaches, and whether the specialization through which it is first
reached is written down. -/
structure Ancestor where
  element : ElementId
  isWritten : Bool
deriving DecidableEq, Repr

structure Redefinition where
  /-- The least number of specializations between the scope's declaration and the owner of the
  redefining feature. -/
  distance : Nat
  redefiner : ElementId
  redefined : ElementId
deriving DecidableEq, Repr

structure RedefinitionGroup where
  redefined : ElementId
  /-- The redefining features, each named once. -/
  redefiners : List ElementId
deriving DecidableEq, Repr

/-- Whether the group leaves no doubt which feature takes the place of the redefined one. -/
def RedefinitionGroup.isUnique (g : RedefinitionGroup) : Bool :=
  g.redefiners.length == 1

namespace Model

def followed (m : Model) (v : Viewpoint) (isOwn : Bool) (t : ElementId) : List Specialization :=
  (m.specializationsOf t .specialization).filter fun s =>
    !s.kind.isRedefinition && v.follows isOwn s.visibility

/-- The supertypes at the end of pending specializations and above them, depth first, without those
that were visited before. -/
def inherit (m : Model) (v : Viewpoint) (visited : List ElementId) :
    List Specialization → List Ancestor
  | [] => []
  | s :: rest =>
    if _h : m.contains s.general ∧ ¬ visited.contains s.general then
      ⟨s.general, !s.isImplied⟩ ::
        m.inherit v (s.general :: visited) (m.followed v false s.general ++ rest)
    else m.inherit v visited rest
termination_by pending => (m.unlisted visited, pending.length)
decreasing_by
  · exact Prod.Lex.left _ _ (m.unlisted_cons_lt _h.1 _h.2)
  · exact Prod.Lex.right _ (by simp)

/-- The supertypes that a declaration inherits from, in the order in which they are reached. -/
def ancestors (m : Model) (v : Viewpoint) (d : ElementId) : List Ancestor :=
  m.inherit v [d] (m.followed v true d)

def nextRing (m : Model) (v : Viewpoint) (isOwn : Bool) (known ring : List ElementId) :
    List ElementId :=
  distinct ((ring.flatMap fun t => (m.followed v isOwn t).map (·.general)).filter fun t =>
    m.contains t && !known.contains t)

/-- The types at the given distance and beyond with their distances, ring by ring. -/
def rings (m : Model) (v : Viewpoint) (isOwn : Bool) (distance : Nat)
    (known ring : List ElementId) : List (ElementId × Nat) :=
  ring.map (·, distance) ++
    match _h : m.nextRing v isOwn known ring with
    | [] => []
    | t :: more => m.rings v false (distance + 1) (known ++ t :: more) (t :: more)
termination_by m.unlisted known
decreasing_by
  have hmem : t ∈ m.nextRing v isOwn known ring := by simp [_h]
  have hmem := (List.mem_filter.1 (mem_of_mem_distinct hmem)).2
  simp only [Bool.and_eq_true, Bool.not_eq_true'] at hmem
  exact m.unlisted_append_lt hmem.1 (by rw [hmem.2]; decide) (by simp)

def distances (m : Model) (v : Viewpoint) (d : ElementId) : List (ElementId × Nat) :=
  m.rings v true 0 [d] [d]

def redefinitionsBy (m : Model) (distance : Nat) (d : ElementId) : List Redefinition :=
  (m.specializationsOf d .redefinition).map fun s => ⟨distance, d, s.general⟩

def redefinitionsIn (m : Model) (distance : Nat) (d : ElementId) : List Redefinition :=
  (m.members d).flatMap (m.redefinitionsBy distance)

/-- The supertypes that count for the scope of a declaration. Only types have some. -/
def scopeAncestors (m : Model) (v : Viewpoint) (d : ElementId) : List Ancestor :=
  if m.isType d then m.ancestors v d else []

def redefinitions (m : Model) (v : Viewpoint) (d : ElementId) : List Redefinition :=
  let far := m.distances v d
  m.redefinitionsBy 0 d ++ m.redefinitionsIn 0 d ++
    (m.scopeAncestors v d).flatMap fun a =>
      ((far.lookup a.element).map fun distance => m.redefinitionsIn distance a.element).getD []

def groups (rs : List Redefinition) : List RedefinitionGroup :=
  (distinct (rs.map fun r => (r.distance, r.redefined))).map fun key =>
    { redefined := key.2
      redefiners := distinct
        ((rs.filter fun r => (r.distance, r.redefined) == key).map (·.redefiner)) }

/-- The reports of all redefinitions of a group after the first. -/
def ambiguities (m : Model) (g : RedefinitionGroup) : List Diagnostic :=
  match g.redefiners with
  | [] => []
  | first :: others => others.map fun d =>
    (Problem.ambiguousRedefinition (m.qualifiedName g.redefined) first (m.span first)
      (m.qualifiedName first)).diagnostic d (m.span d)

/-- The candidates of a scope, best first. -/
def candidates (m : Model) (v : Viewpoint) (d : ElementId) : List Candidate :=
  (m.membersFor d v.ownAudience).map ({ element := ·, origin := .own }) ++
  (m.imported d).map (fun i =>
    { element := i.element, newName := i.newName, origin := .imported }) ++
  (if m.isType d && v == .inside then [{ element := d, origin := .own }] else []) ++
  (m.scopeAncestors v d).flatMap fun a =>
    (if v == .inside && a.isWritten then [{ element := a.element, origin := .inherited }]
      else []) ++
    (m.membersFor a.element v.heirAudience).map ({ element := ·, origin := .inherited })

def entry? (m : Model) (c : Candidate) : Option ScopeEntry :=
  (c.newName.or ((m.effectiveName c.element).or (m.shortName c.element))).map fun name =>
    { name
      shortName := if c.newName.isSome then none else m.shortName c.element
      qualifiedName := m.qualifiedName c.element
      element := c.element
      origin := c.origin }

/-- What would be visible at a declaration without redefinitions. -/
def unhiddenEntries (m : Model) (v : Viewpoint) (d : ElementId) : List ScopeEntry :=
  distinctBy (·.element) ((m.candidates v d).filterMap m.entry?)

/-- What is visible at a declaration. Nothing is visible at an unknown one. -/
def scope (m : Model) (v : Viewpoint) (d : ElementId) : Scope :=
  if m.contains d then
    let gs := groups (m.redefinitions v d)
    let hidden := (gs.filter (·.isUnique)).map (·.redefined)
    { entries := (m.unhiddenEntries v d).filter fun e => !hidden.contains e.element
      diagnostics := (gs.filter (!·.isUnique)).flatMap m.ambiguities }
  else {}

def scopeElements (m : Model) (v : Viewpoint) : List (List ElementId) :=
  m.ids.map fun d => (m.scope v d).elements

end Model
end Kerml
