import Kerml.SupertypeTable.Rows
import Kerml.Yaml.Node
import Kerml.Yaml.Scalar

/-!
# Tables of implied supertypes as YAML text

A mapping of kinds to mappings of roles to paths.
-/
namespace Kerml.SupertypeTable.YamlText

open Kerml.Yaml

/-- A cell, on a line of its own unless its path has lines. -/
def cellLine (cell : Cell) : List Char :=
  ' ' :: ' ' :: (cell.1 ++ ':' :: ' ' :: scalarLine [' ', ' ', ' ', ' '] cell.2)

def rowLines (row : Row) : List Char :=
  match row.2 with
  | [] => row.1 ++ [':', ' ', '{', '}', '\n']
  | cells => row.1 ++ ':' :: '\n' :: cells.flatMap cellLine

def renderRows : List Row → List Char
  | [] => ['{', '}', '\n']
  | rows => rows.flatMap rowLines

def cell? (entry : Node × Node) : Option Cell := do
  return (← entry.1.text?, ← entry.2.text?)

def row? (entry : Node × Node) : Option Row := do
  return (← entry.1.text?, ← (← entry.2.entries?).mapM cell?)

def parseRows? (text : List Char) : Option (List Row) := do
  (← (← Node.parse? text).entries?).mapM row?

def render (t : SupertypeTable) : String :=
  String.ofList (renderRows t.toRows)

def parse? (text : String) : Option SupertypeTable := do
  ofRows? (← parseRows? text.toList)

end Kerml.SupertypeTable.YamlText
