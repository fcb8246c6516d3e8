import Kerml.Link
import Kerml.Scope

/-!
# Checking a linked model

What linking found and what is wrong with the scopes.
-/
namespace Kerml.Model

/-- Whether a declaration has members, imports or specializations, so that its scope can have
problems. -/
def hasContent (m : Model) (d : ElementId) : Bool :=
  !(m.members d).isEmpty || !(m.imports d).isEmpty || !(m.specializations.get d).isEmpty

def scopeProblems (m : Model) (d : ElementId) : List Diagnostic :=
  if m.hasContent d then (m.scope .inside d).diagnostics else []

def allProblems (m : Model) : List Diagnostic :=
  m.report.diagnostics ++ m.preorder.flatMap m.scopeProblems

def check (m : Model) : List Diagnostic :=
  (Report.mk m.allProblems).summary

/-- The problems of the given declarations' scopes, if all of them are known, after those of the
whole model if it is to be checked first. Each is named once. -/
def checkSome? (m : Model) (wholeModel : Bool) (ds : List ElementId) : Option (List Diagnostic) :=
  if ds.all m.contains then
    some (Report.mk
      ((if wholeModel then m.allProblems else []) ++ ds.flatMap m.scopeProblems)).summary
  else none

end Kerml.Model
