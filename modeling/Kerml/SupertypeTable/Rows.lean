import Kerml.SupertypeTable

/-!
# Rows and cells of table files

They are the same whatever the format.
-/
namespace Kerml.SupertypeTable

abbrev Cell := List Char × List Char

abbrev Row := List Char × List Cell

def toRows (t : SupertypeTable) : List Row :=
  t.rows.entries.map fun row =>
    (row.1.name.toList, row.2.entries.map fun cell => (cell.1.name.toList, cell.2.toList))

def ofCell? (cell : Cell) : Option (SupertypeRole × String) :=
  (SupertypeRole.ofName? (String.ofList cell.1)).map (·, String.ofList cell.2)

/-- The kind and paths that a row stands for. A role named twice keeps its first place and its last
path. -/
def ofRow? (row : Row) : Option (Metaclass × RolePaths) := do
  let k ← Metaclass.ofName? (String.ofList row.1)
  let cells ← row.2.mapM ofCell?
  return (k, .ofList cells)

/-- The table that rows stand for. A kind named twice keeps its first place and its last row. -/
def ofRows? (rows : List Row) : Option SupertypeTable := do
  let rows ← rows.mapM ofRow?
  return ⟨.ofList rows⟩

end Kerml.SupertypeTable
