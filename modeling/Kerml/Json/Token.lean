import Kerml.Json.Quoted

/-! # Tokens of JSON text that consists of objects and strings -/
namespace Kerml.Json

inductive Token
  | openBrace
  | closeBrace
  | colon
  | comma
  | text (chars : List Char)
deriving DecidableEq, Repr

def isSpace (c : Char) : Bool :=
  c == ' ' || c == '\n' || c == '\t' || c == '\r'

def punctuation? : Char → Option Token
  | '{' => some .openBrace
  | '}' => some .closeBrace
  | ':' => some .colon
  | ',' => some .comma
  | _ => none

/-- The tokens of a text, or `none` when something else stands in it. -/
def tokens? : List Char → Option (List Token)
  | [] => some []
  | c :: rest =>
    if isSpace c then tokens? rest
    else if c = '"' then
      match h : decode? rest with
      | none => none
      | some (chars, left) =>
        have : left.length < rest.length := length_lt_of_decode? h
        (tokens? left).map (.text chars :: ·)
    else
      match punctuation? c with
      | none => none
      | some token => (tokens? rest).map (token :: ·)
termination_by s => s.length

end Kerml.Json
