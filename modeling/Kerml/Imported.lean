import Kerml.Forest.Unlisted
import Kerml.Lookup

/-!
# What import directives bring in

A recursive directive also brings in what is imported publicly by the namespaces that it walks
through; each namespace hands on once, so that imports may form cycles.
-/
namespace Kerml

/-- A declaration that an import brings in, under a new name if the directive gives one. -/
structure Imported where
  element : ElementId
  newName : Option String := none
deriving DecidableEq, Repr

/-- A step of the expansion of directives. -/
inductive ImportStep
  /-- A declaration comes in. -/
  | bring (i : Imported)
  /-- A namespace hands on what it imports publicly. -/
  | handOn (d : ElementId)
deriving DecidableEq, Repr

namespace Model

def bring (d : ElementId) : ImportStep :=
  .bring { element := d }

/-- The public declarations below a namespace, each followed by what is below it. A namespace
hands on after everything below it. -/
def publicSteps (m : Model) (d : ElementId) : List ImportStep :=
  ((m.membersFor d .outsider).flatMap fun c =>
    if _h : d.index < c.index ∧ c.index < m.size then bring c :: m.publicSteps c else []) ++
  [.handOn d]
termination_by m.size - d.index

def targetSteps (m : Model) (i : Import) (t : ElementId) : List ImportStep :=
  match i.shape with
  | .specific => [.bring { element := t, newName := i.newName }]
  | .wildcard => bring t :: (m.membersFor t .outsider).map bring
  | .recursive => bring t :: m.publicSteps t
  | .recursiveExclusive => m.publicSteps t

def directiveSteps (m : Model) (d : ElementId) (i : Import) : List ImportStep :=
  match m.importTarget? d i with
  | none => []
  | some t => m.targetSteps i t

def ownSteps (m : Model) (d : ElementId) : List ImportStep :=
  (m.imports d).flatMap (m.directiveSteps d)

def publicImportSteps (m : Model) (d : ElementId) : List ImportStep :=
  ((m.imports d).filter (·.isPublic)).flatMap (m.directiveSteps d)

/-- Carries out steps. The second list holds the namespaces that have handed on. -/
def runSteps (m : Model) (visited : List ElementId) : List ImportStep → List Imported
  | [] => []
  | .bring i :: rest => i :: m.runSteps visited rest
  | .handOn d :: rest =>
    if _h : m.contains d ∧ ¬ visited.contains d then
      m.runSteps (d :: visited) (m.publicImportSteps d ++ rest)
    else m.runSteps visited rest
termination_by steps => (m.unlisted visited, steps.length)
decreasing_by
  · exact Prod.Lex.right _ (by simp)
  · exact Prod.Lex.left _ _ (m.unlisted_cons_lt _h.1 _h.2)
  · exact Prod.Lex.right _ (by simp)

/-- Everything that the import directives of a declaration bring in, whatever their visibility. A
declaration occurs as often as it is brought in. -/
def imported (m : Model) (d : ElementId) : List Imported :=
  m.runSteps [d] (m.ownSteps d)

def imported? (m : Model) (d : ElementId) : Option (List Imported) :=
  if m.contains d then some (m.imported d) else none

end Model
end Kerml
