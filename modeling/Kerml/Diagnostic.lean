import Kerml.Distinct
import Kerml.ElementId
import Kerml.Span

/-! # Problems found in a model, and reports that collect them -/
namespace Kerml

inductive Severity
  | error
  | warning
deriving DecidableEq, Repr

structure RelatedNote where
  element : ElementId
  span : Option Span := none
  message : String
deriving DecidableEq, Repr

structure Diagnostic where
  element : ElementId
  span : Option Span := none
  severity : Severity
  code : Option String := none
  message : String
  related : List RelatedNote := []
deriving DecidableEq, Repr

inductive Problem
  /-- A path in a specialization leads nowhere. -/
  | undefinedReference (path : String)
  /-- The path of an import leads nowhere. -/
  | unresolvedImport (directive : String)
  /-- An import asks for a declaration that is hidden from it. -/
  | hiddenImport (directive hidden : String)
  /-- A feature is redefined twice equally far away. -/
  | ambiguousRedefinition (redefined : String) (first : ElementId) (span : Option Span)
      (firstName : String)
  /-- The library lacks the declaration for an implied supertype. -/
  | missingSupertype (path : String)
deriving DecidableEq, Repr

namespace Problem

def severity : Problem → Severity
  | missingSupertype _ => .warning
  | _ => .error

def code : Problem → String
  | undefinedReference _ => "E0001"
  | unresolvedImport _ => "E0001"
  | hiddenImport _ _ => "E0014"
  | ambiguousRedefinition _ _ _ _ => "E0009"
  | missingSupertype _ => "W0004"

def message : Problem → String
  | undefinedReference path => "undefined reference: '" ++ path ++ "'"
  | unresolvedImport directive => "unresolved import: '" ++ directive ++ "'"
  | hiddenImport directive hidden =>
    "invalid import: '" ++ hidden ++ "' is not visible in '" ++ directive ++ "'"
  | ambiguousRedefinition redefined _ _ firstName =>
    "ambiguous redefinition: '" ++ redefined ++ "' is already redefined by '" ++ firstName ++ "'"
  | missingSupertype path => "implicit supertype '" ++ path ++ "' is not loaded"

def related : Problem → List RelatedNote
  | ambiguousRedefinition redefined first span _ =>
    [{ element := first, span, message := "first redefinition of '" ++ redefined ++ "'" }]
  | _ => []

def diagnostic (p : Problem) (element : ElementId) (span : Option Span) : Diagnostic where
  element := element
  span := span
  severity := p.severity
  code := some p.code
  message := p.message
  related := p.related

end Problem

namespace Diagnostic

def isError (d : Diagnostic) : Bool :=
  d.severity == .error

/-- What two reports of the same problem have in common. -/
def key (d : Diagnostic) : ElementId × Option String × String :=
  (d.element, d.code, d.message)

end Diagnostic

/-- The problems found so far, in the order in which they were found. -/
structure Report where
  diagnostics : List Diagnostic := []
deriving DecidableEq, Repr

namespace Report

instance : EmptyCollection Report := ⟨{}⟩

def add (r : Report) (d : Diagnostic) : Report :=
  ⟨r.diagnostics ++ [d]⟩

def addAll (r : Report) (ds : List Diagnostic) : Report :=
  ⟨r.diagnostics ++ ds⟩

def about (r : Report) (element : ElementId) : List Diagnostic :=
  r.diagnostics.filter (·.element == element)

def dropAbout (r : Report) (element : ElementId) : Report :=
  ⟨r.diagnostics.filter (·.element != element)⟩

def errorCount (r : Report) : Nat :=
  r.diagnostics.countP (·.severity == .error)

def warningCount (r : Report) : Nat :=
  r.diagnostics.countP (·.severity == .warning)

def hasErrors (r : Report) : Bool :=
  r.diagnostics.any (·.severity == .error)

def summary (r : Report) : List Diagnostic :=
  distinctBy Diagnostic.key r.diagnostics

end Report
end Kerml
