import Kerml.Json.Token
import Kerml.SupertypeTable.Rows

/-!
# Tables of implied supertypes as JSON text

An object with a member for each kind, which is an object that maps roles to paths.
-/
namespace Kerml.SupertypeTable.JsonText

open Kerml.Json

def object (indent : List Char) : List (List Char) → List Char
  | [] => ['{', '}']
  | members =>
    '{' :: '\n' ::
      ([',', '\n'].intercalate (members.map (indent ++ [' ', ' '] ++ ·)) ++
        '\n' :: (indent ++ ['}']))

def member (name value : List Char) : List Char :=
  encode name ++ ':' :: ' ' :: value

def renderRows (rows : List Row) : List Char :=
  object [] (rows.map fun row =>
    member row.1 (object [' ', ' '] (row.2.map fun cell => member cell.1 (encode cell.2))))

def readCells? : List Token → Option (List Cell)
  | [.text name, .colon, .text path] => some [(name, path)]
  | .text name :: .colon :: .text path :: .comma :: rest =>
    (readCells? rest).map ((name, path) :: ·)
  | _ => none

def readRow? (tokens : List Token) : Option (List Cell) :=
  if tokens.isEmpty then some [] else readCells? tokens

/-- Reads one or more rows, separated by commas, and the brace that closes them. -/
def readRows? : List Token → Option (List Row)
  | .text name :: .colon :: .openBrace :: rest =>
    match readRow? (rest.takeWhile (· != .closeBrace)),
        _h : rest.dropWhile (· != .closeBrace) with
    | some cells, [.closeBrace, .closeBrace] => some [(name, cells)]
    | some cells, .closeBrace :: .comma :: more => (readRows? more).map ((name, cells) :: ·)
    | _, _ => none
  | _ => none
termination_by tokens => tokens.length
decreasing_by
  have hle := (List.dropWhile_sublist (l := rest) (· != Token.closeBrace)).length_le
  rw [_h] at hle
  simp only [List.length_cons] at hle ⊢
  omega

def parseRows? (text : List Char) : Option (List Row) :=
  match tokens? text with
  | some [.openBrace, .closeBrace] => some []
  | some (.openBrace :: rest) => readRows? rest
  | _ => none

def render (t : SupertypeTable) : String :=
  String.ofList (renderRows t.toRows)

def parse? (text : String) : Option SupertypeTable := do
  ofRows? (← parseRows? text.toList)

end Kerml.SupertypeTable.JsonText
