import Kerml.Text.Blank
import Kerml.Text.Identifier

/-!
# Qualified names

Segments joined by `::`, each written bare when it is an identifier and between single quotes
otherwise.
-/
namespace Kerml.QualifiedName

open Kerml.Text

/-- Whether a name reads as an identifier and so needs no quotes. -/
def isBasic (name : String) : Bool :=
  match name.toList with
  | [] => false
  | c :: rest => (c == '_' || isIdentifierStart c) && rest.all isIdentifierPart

def escape : List Char → List Char
  | [] => []
  | c :: rest =>
    if c == '\'' || c == '\\' then '\\' :: c :: escape rest else c :: escape rest

def segmentChars (name : String) : List Char :=
  if isBasic name then name.toList else '\'' :: (escape name.toList ++ ['\''])

def quote (name : String) : String :=
  String.ofList (segmentChars name)

def pathChars : List String → List Char
  | [] => []
  | [name] => segmentChars name
  | name :: next :: rest => segmentChars name ++ ':' :: ':' :: pathChars (next :: rest)

def render (path : List String) : String :=
  String.ofList (pathChars path)

/-- A segment that is being read: its characters so far, and whether a quote opened it. -/
structure Segment where
  chars : List Char := []
  quoted : Bool := false
deriving DecidableEq, Repr

namespace Segment

def push (s : Segment) (c : Char) : Segment :=
  { s with chars := s.chars ++ [c] }

def isUntouched (s : Segment) : Bool :=
  s.chars.isEmpty && !s.quoted

/-- The name that the segment stands for. White space around a bare name does not count. -/
def name (s : Segment) : String :=
  String.ofList (if s.quoted then s.chars else trim s.chars)

end Segment

/-- Reads segments from trimmed text. The flag says that the reader stands between quotes, where a
backslash takes the next character as it is. -/
def scan : Bool → Segment → List Char → Option (List String)
  | true, _, [] => none
  | true, _, ['\\'] => none
  | true, s, '\\' :: c :: rest => scan true (s.push c) rest
  | true, s, c :: rest => if c == '\'' then scan false s rest else scan true (s.push c) rest
  | false, s, [] => if !s.quoted && (trim s.chars).isEmpty then none else some [s.name]
  | false, s, ':' :: ':' :: rest =>
    if s.isUntouched then none else (scan false {} rest).map (s.name :: ·)
  | false, s, c :: rest =>
    if c == '\'' && s.isUntouched then scan true { s with quoted := true } rest
    else scan false (s.push c) rest

/-- The segments of a qualified name, or `none` when it is empty, a segment is missing or a quote
stays open. -/
def parse? (text : String) : Option (List String) :=
  scan false {} (trim text.toList)

end Kerml.QualifiedName
