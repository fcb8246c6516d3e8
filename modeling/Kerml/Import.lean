import Kerml.BuildError
import Kerml.QualifiedName
import Kerml.Span
import Kerml.Visibility

/-!
# Import directives

How they are read and how they are written.
-/
namespace Kerml

/-- What an import directive takes from its target. -/
inductive ImportShape
  /-- The target alone, `A::B`. -/
  | specific
  /-- The target and its public members, `A::*`. -/
  | wildcard
  /-- The target and everything public below it, `A::**`. -/
  | recursive
  /-- Everything public below the target, `A::*::**`. -/
  | recursiveExclusive
deriving DecidableEq, Repr

/-- The segments that follow the target's path to select a shape. -/
def ImportShape.marks : ImportShape → List String
  | specific => []
  | wildcard => ["*"]
  | recursive => ["**"]
  | recursiveExclusive => ["*", "**"]

def ImportShape.suffix (s : ImportShape) : String :=
  String.join (s.marks.map ("::" ++ ·))

structure Import where
  path : List String
  shape : ImportShape := .specific
  visibility : Visibility := .priv
  newName : Option String := none
  span : Option Span := none
deriving DecidableEq, Repr

namespace Import

def isPublic (i : Import) : Bool :=
  i.visibility == .pub

def splitMarks (segments : List String) : List String × ImportShape :=
  match segments.reverse with
  | "**" :: "*" :: rest => (rest.reverse, .recursiveExclusive)
  | "**" :: rest => (rest.reverse, .recursive)
  | "*" :: rest => (rest.reverse, .wildcard)
  | _ => (segments, .specific)

def isMark (segment : String) : Bool :=
  segment == "*" || segment == "**"

/-- Reads an import path such as `A::B::*`. -/
def parse (text : String) : Except BuildError Import :=
  if text.toList.all Text.isBlank then .error .emptyPath
  else
    match QualifiedName.parse? text with
    | none => .error (.malformedPath text)
    | some segments =>
      let (path, shape) := splitMarks segments
      if path.isEmpty || path.any isMark then .error (.malformedPath text)
      else .ok { path, shape }

def text (i : Import) : String :=
  QualifiedName.render i.path ++ i.shape.suffix

end Import
end Kerml
