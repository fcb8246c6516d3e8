import Kerml.ElementId
import Kerml.Metaclass

/-! # Refused steps of building a model -/
namespace Kerml

inductive BuildError
  /-- No declaration has the handle. -/
  | unknownElement (element : ElementId)
  /-- A specialization of a declaration that is not a type. -/
  | notAType (kind : Metaclass) (element : ElementId)
  /-- Feature modifiers on a declaration that is not a feature. -/
  | notAFeature (kind : Metaclass)
  /-- An import by a declaration that is not a namespace. -/
  | notANamespace (kind : Metaclass) (element : ElementId)
  /-- An import path without any text. -/
  | emptyPath
  /-- An import path that cannot be read. -/
  | malformedPath (text : String)
deriving DecidableEq, Repr

def BuildError.message : BuildError → String
  | unknownElement d => "Unknown declaration: " ++ d.text
  | notAType k d => k.keyword ++ " " ++ d.text ++ " is not a type and cannot specialize"
  | notAFeature k => k.keyword ++ " declarations cannot carry feature modifiers"
  | notANamespace k d => k.keyword ++ " " ++ d.text ++ " is not a namespace and cannot import"
  | emptyPath => "Empty path"
  | malformedPath text => "Malformed path: " ++ text

end Kerml
