import Kerml.SupertypeTable.JsonText
import Kerml.SupertypeTable.YamlText

/-! # Files that hold tables of implied supertypes -/
namespace Kerml

inductive TableFormat
  | json
  | yaml
deriving DecidableEq, Repr

inductive TableError
  /-- The file is not there, or not text. -/
  | unreadable
  /-- The text is not a table in the expected format. -/
  | malformed (format : TableFormat)
deriving DecidableEq, Repr

def pathSteps (path : String) : List String :=
  (path.splitOn "/").filter fun s => s != "" && s != "."

/-- The part of a file name after its last dot, if something comes before that dot. -/
def nameExtension? (name : String) : Option String :=
  match (name.splitOn ".").reverse with
  | last :: stem@(first :: more) =>
    if name == ".." || (first == "" && more.isEmpty && stem.length == 1) then none else some last
  | _ => none

namespace TableFormat

/-- The format of the file at a path: YAML if its name ends so, and JSON otherwise. -/
def ofPath (path : String) : TableFormat :=
  match (pathSteps path).getLast?.bind nameExtension? with
  | some e => if e.toLower == "yaml" || e.toLower == "yml" then yaml else json
  | none => json

def render : TableFormat → SupertypeTable → String
  | json, t => SupertypeTable.JsonText.render t
  | yaml, t => SupertypeTable.YamlText.render t

def parse (f : TableFormat) (text : String) : Except TableError SupertypeTable :=
  let table? := match f with
    | json => SupertypeTable.JsonText.parse? text
    | yaml => SupertypeTable.YamlText.parse? text
  match table? with
  | some t => .ok t
  | none => .error (.malformed f)

end TableFormat

/-- A folder without folders in it: the names of its files and what they hold. -/
structure Folder where
  files : List (String × ByteArray) := []

namespace Folder

def empty : Folder := {}

/-- A file name: at most 255 bytes, none of them NUL, and not the name of the folder above. -/
def isFileName (name : String) : Bool :=
  name != ".." && name.utf8ByteSize ≤ 255 && !name.contains '\x00'

/-- The name that a path has in the folder, if it leads to a file there and has less than
4096 bytes. -/
def nameOf? (path : String) : Option String :=
  if path.startsWith "/" || path.endsWith "/" || path.endsWith "/." then none
  else
    match pathSteps path with
    | [name] => if isFileName name && path.utf8ByteSize < 4096 then some name else none
    | _ => none

def write? (f : Folder) (path : String) (bytes : ByteArray) : Option Folder :=
  (nameOf? path).map fun name => ⟨(name, bytes) :: f.files.filter (·.1 != name)⟩

def read? (f : Folder) (path : String) : Option ByteArray :=
  (nameOf? path).bind fun name => f.files.lookup name

def text? (f : Folder) (path : String) : Option String :=
  (f.read? path).bind String.fromUTF8?

end Folder

structure TableFile where
  path : String
  format : TableFormat
deriving DecidableEq, Repr

namespace TableFile

def load (file : TableFile) (folder : Folder) : Except TableError SupertypeTable :=
  match folder.text? file.path with
  | some text => file.format.parse text
  | none => .error .unreadable

def save (file : TableFile) (folder : Folder) (t : SupertypeTable) : Except TableError Folder :=
  match folder.write? file.path (file.format.render t).toUTF8 with
  | some folder => .ok folder
  | none => .error .unreadable

end TableFile
end Kerml
