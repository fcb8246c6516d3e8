import Kerml.Classification
import Kerml.Naming

/-!
# Linking

The specializations that are written down are bound, unnamed features are named, the supertypes
that the library implies are added, and imports are checked.
-/
namespace Kerml.Model

def addProblem (m : Model) (d : ElementId) (span : Option Span) (p : Problem) : Model :=
  { m with report := m.report.add (p.diagnostic d span) }

def specialize (m : Model) (d : ElementId) (s : Specialization) : Model :=
  { m with
    specializations := m.specializations.put d (Specialization.record (m.specializations.get d) s)
    memos := m.memos.put d .unknown }

/-- The declaration that a request of a declaration refers to. Paths start at its owner. -/
def bind? (m : Model) (d : ElementId) (r : Request) : Option ElementId :=
  match r.target with
  | .element t => some t
  | .path path => (m.lookup (m.owner d) path).found?

def referenceText : Reference → String
  | .element t => t.text
  | .path path => QualifiedName.render path

/-- Carries out a request that is bound to a declaration, or reports it. -/
def applyRequest (m : Model) (d : ElementId) (r : Request) : Option ElementId → Model
  | some t => m.specialize d { general := t, kind := r.kind, visibility := r.visibility }
  | none => m.addProblem d (r.span.or (m.span d)) (.undefinedReference (referenceText r.target))

/-- Binds all requests of a declaration and then carries them out. -/
def applyRequests (m : Model) (d : ElementId) : Model :=
  ((m.requests d).map fun r => (r, m.bind? d r)).foldl (fun m b => m.applyRequest d b.1 b.2) m

/-- Whether a type is given a supertype of its general kind, or a conjugate, in writing. -/
def hasWrittenSupertype (m : Model) (d : ElementId) : Bool :=
  Specialization.hasWritten (m.specializations.get d) (m.metaclass d).generalKind ||
    Specialization.hasWritten (m.specializations.get d) .conjugation

/-- The role of a feature that is neither a step nor an expression, by its categories and those of
its owner. -/
def featureRole (isComposite : Bool) (owners own : Categories) : SupertypeRole :=
  if own.struct then
    if isComposite && owners.struct then .subobject else .object
  else if own.klass then
    if isComposite && owners.klass then .suboccurrence else .occurrence
  else if own.dataType then .dataValue
  else .base

def stepRole (isComposite ownerPerforms : Bool) : SupertypeRole :=
  if isComposite && ownerPerforms then .subperformance else .base

def askOwnerCategories (m : Model) (d : ElementId) : Categories × Model :=
  match m.owner d with
  | some o => m.askCategories o
  | none => (∅, m)

def askRole (m : Model) (d : ElementId) : SupertypeRole × Model :=
  let k := m.metaclass d
  if k.isRelationship then (if m.isBinary d then .binary else .base, m)
  else if !k.isFeature then (.base, m)
  else
    let isComposite := (m.modifiers d).isComposite
    let (owners, m) := m.askOwnerCategories d
    match k with
    | .step =>
      let ownerPerforms := (m.owner d).any fun o => (m.metaclass o).isPerformance
      (stepRole isComposite (ownerPerforms || owners.behavior), m)
    | .expression => (.base, m)
    | _ =>
      let (own, m) := m.askCategories d
      (featureRole isComposite owners own, m)

/-- Whether a declaration is an end of the association or connector that owns it. -/
def isParticipant (m : Model) (d : ElementId) : Bool :=
  (m.metaclass d).isFeature && (m.modifiers d).isEnd &&
    (m.owner d).any fun o => (m.metaclass o).isRelationship

def askRoles (m : Model) (d : ElementId) : List SupertypeRole × Model :=
  let (general, m) :=
    if m.hasWrittenSupertype d then ([], m) else let (r, m) := m.askRole d; ([r], m)
  (general ++ if m.isParticipant d then [.participant] else [], m)

/-- Adds the supertype that the library has for a role. A library declaration is not made its own
supertype. -/
def addImplied (m : Model) (d : ElementId) (r : SupertypeRole) : Model :=
  match m.library.pathFor? (m.metaclass d) r with
  | none => m
  | some path =>
    match m.find? path with
    | none => m.addProblem d (m.span d) (.missingSupertype path)
    | some t =>
      if t = d then m
      else m.specialize d
        { general := t, kind := (m.metaclass d).generalKind, isImplied := true }

def addSupertypes (m : Model) (d : ElementId) : Model :=
  if m.isType d then
    let (roles, m) := m.askRoles d
    roles.foldl (·.addImplied d ·) m
  else m

/-- What is wrong with an import directive of a declaration. -/
def importProblem? (m : Model) (d : ElementId) (i : Import) : Option Problem :=
  match m.lookup (some d) i.path with
  | .found _ => none
  | .hidden h => some (.hiddenImport i.text (m.qualifiedName h))
  | .missing => some (.unresolvedImport i.text)

def checkImports (m : Model) (d : ElementId) : Model :=
  let found := (m.imports d).filterMap fun i =>
    (m.importProblem? d i).map (·.diagnostic d (i.span.or (m.span d)))
  { m with report := m.report.addAll found }

/-- What is written down and the library, without anything derived. -/
def unlinked (m : Model) : Model where
  toForest := m.toForest
  library := m.library

def link (m : Model) : Model :=
  let m := m.unlinked
  let order := m.preorder
  let m := order.foldl applyRequests m
  let m := m.takeNames order
  let m := order.foldl addSupertypes m
  let m := order.foldl checkImports m
  { m with memos := ∅ }

/-- Drops what has been derived for a declaration, and the qualified names below it. -/
def reset (m : Model) (d : ElementId) : Except BuildError Model :=
  if !m.contains d then .error (.unknownElement d)
  else
    let m : Model :=
      { m with
        specializations := m.specializations.put d []
        takenNames := m.takenNames.put d none
        memos := m.memos.put d .unknown
        report := m.report.dropAbout d }
    .ok (m.forgetNames d)

def relink (m : Model) (d : ElementId) : Except BuildError Model :=
  if !m.contains d then .error (.unknownElement d)
  else
    let m := m.applyRequests d
    let m := m.takeNames [d]
    let m := m.addSupertypes d
    let m := m.checkImports d
    .ok (m.forgetCategories d)

end Kerml.Model
